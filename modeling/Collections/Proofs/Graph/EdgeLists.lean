import Mathlib
import Collections.Graph.EdgeLists
import Collections.Proofs.DistinctKeys
import Collections.Proofs.Graph.CostGraph

/-!
# Coherence of list graphs

The rows of a list graph and its edge counter describe one graph: each row belongs to its
vertex and has at most one edge to a target, each target is a vertex, and the counter is
the number of the edges in all rows.  Every call keeps them coherent.
-/

namespace Collections

universe u v

/-! ## Rows -/

namespace EdgeList

variable {V : Type u} {E : Type v} [BEq V] {row : EdgeList V E} {target other : V} {cost : E}

theorem isSome_place? (row : EdgeList V E) (target : V) :
    (row.place? target).isSome = (row.cost? target).isSome := by
  rw [place?, cost?, Option.isSome_map, List.findIdx?_isSome, Bool.eq_iff_iff, List.any_eq_true,
    List.find?_isSome]

/-- The two outcomes of a write: the edge to the target is overwritten in its place, or a new
edge is appended. -/
theorem put_cases (row : EdgeList V E) (target : V) (cost : E) :
    (∃ front stored old back, row.edges = front ++ (stored, old) :: back ∧
      (stored == target) = true ∧ (∀ edge ∈ front, ¬ (edge.1 == target) = true) ∧
        row.put target cost = ⟨row.vertex, front ++ (stored, cost) :: back⟩) ∨
    ((∀ edge ∈ row.edges, ¬ (edge.1 == target) = true) ∧
      row.put target cost = ⟨row.vertex, row.edges ++ [(target, cost)]⟩) := by
  rw [put, place?]
  cases hplace : row.edges.findIdx? fun edge => edge.1 == target with
  | none =>
      right
      rw [List.findIdx?_eq_none_iff] at hplace
      exact ⟨fun edge hedge => Bool.eq_false_iff.mp (hplace edge hedge), rfl⟩
  | some place =>
      left
      obtain ⟨hbound, hmatches, hbefore⟩ := List.findIdx?_eq_some_iff_getElem.mp hplace
      refine ⟨row.edges.take place, row.edges[place].1, row.edges[place].2,
        row.edges.drop (place + 1), ?_, hmatches, ?_, ?_⟩
      · rw [Prod.mk.eta, List.getElem_cons_drop, List.take_append_drop]
      · intro edge hedge
        obtain ⟨earlier, hearlier, hat⟩ := List.mem_take_iff_getElem.mp hedge
        rw [Nat.lt_min] at hearlier
        rw [← hat]
        exact hbefore earlier hearlier.1
      · dsimp only
        rw [List.modify_eq_take_cons_drop hbound]

/-- A write keeps the targets as they are, or appends one. -/
theorem keys_put (row : EdgeList V E) (target : V) (cost : E) :
    (row.put target cost).edges.map Prod.fst =
      row.edges.map Prod.fst ++ if (row.cost? target).isSome then [] else [target] := by
  rcases put_cases row target cost with ⟨front, stored, old, back, hedges, hkey, -, hput⟩ |
    ⟨habsent, hput⟩
  · have hfound : (row.cost? target).isSome = true := by
      rw [cost?, Option.isSome_map, List.find?_isSome, hedges]
      exact ⟨(stored, old), by simp, hkey⟩
    rw [hput, hfound, if_pos rfl, hedges, List.append_nil]
    simp
  · have hmissing : row.cost? target = none := by
      rw [cost?, List.find?_eq_none.mpr habsent, Option.map_none]
    rw [hput, hmissing]
    simp

theorem vertex_put (row : EdgeList V E) (target : V) (cost : E) :
    (row.put target cost).vertex = row.vertex := by
  rw [put]
  split <;> rfl

@[simp]
theorem vertex_without (row : EdgeList V E) (target : V) :
    (row.without target).vertex = row.vertex := rfl

theorem mem_put {edge : V × E} (hedge : edge ∈ (row.put target cost).edges) :
    (∃ old ∈ row.edges, edge.1 = old.1) ∨ edge.1 = target := by
  have hkey : edge.1 ∈ (row.put target cost).edges.map Prod.fst := List.mem_map_of_mem hedge
  rw [keys_put, List.mem_append] at hkey
  rcases hkey with hold | hnew
  · obtain ⟨old, hold, hsame⟩ := List.mem_map.mp hold
    exact Or.inl ⟨old, hold, hsame.symm⟩
  · split at hnew
    · exact absurd hnew List.not_mem_nil
    · exact Or.inr (List.mem_singleton.mp hnew)

theorem length_put (row : EdgeList V E) (target : V) (cost : E) :
    (row.put target cost).edges.length =
      row.edges.length + if (row.cost? target).isSome then 0 else 1 := by
  rw [← List.length_map Prod.fst, keys_put, List.length_append, List.length_map]
  split <;> rfl

theorem distinctKeys_put (hdistinct : DistinctKeys row.edges) (target : V) (cost : E) :
    DistinctKeys (row.put target cost).edges := by
  rw [distinctKeys_iff] at hdistinct ⊢
  rw [keys_put, List.pairwise_append]
  cases hfound : row.cost? target with
  | some _ => simpa using hdistinct
  | none =>
      rw [cost?, Option.map_eq_none_iff, List.find?_eq_none] at hfound
      refine ⟨hdistinct, by simp, ?_⟩
      intro key hkey appended happended
      obtain ⟨edge, hedge, hkeyOf⟩ := List.mem_map.mp hkey
      rw [Option.isSome_none, if_neg Bool.false_ne_true, List.mem_singleton] at happended
      rw [happended, ← hkeyOf]
      exact hfound edge hedge

variable [EquivBEq V]

theorem find?_eq_none_of_equal {edges : List (V × E)}
    (habsent : ∀ edge ∈ edges, ¬ (edge.1 == target) = true) (hsame : (target == other) = true) :
    edges.find? (fun edge => edge.1 == other) = none := by
  rw [List.find?_eq_none]
  intro edge hedge
  rw [← BEq.congr_right hsame]
  exact habsent edge hedge

theorem cost?_put (row : EdgeList V E) (target : V) (cost : E) (other : V) :
    (row.put target cost).cost? other =
      if (target == other) = true then some cost else row.cost? other := by
  rcases put_cases row target cost with ⟨front, stored, old, back, hedges, hkey, hfront, hput⟩ |
    ⟨habsent, hput⟩
  · rw [hput, cost?, cost?, hedges, List.find?_append, List.find?_append, List.find?_cons,
      List.find?_cons]
    dsimp only
    rw [BEq.congr_left hkey]
    cases hsame : target == other with
    | true =>
        rw [find?_eq_none_of_equal hfront hsame]
        rfl
    | false => rfl
  · rw [hput, cost?, cost?, List.find?_append, List.find?_singleton]
    dsimp only
    cases hsame : target == other with
    | true =>
        rw [find?_eq_none_of_equal habsent hsame]
        rfl
    | false => rw [if_neg Bool.false_ne_true, if_neg Bool.false_ne_true, Option.or_none]

theorem cost?_without (row : EdgeList V E) (target other : V) :
    (row.without target).cost? other =
      if (target == other) = true then none else row.cost? other := by
  rw [cost?, cost?, without, List.find?_filter]
  split
  next hsame =>
    rw [Option.map_eq_none_iff, List.find?_eq_none]
    intro edge _
    rw [← BEq.congr_right hsame]
    simp [bne]
  next hdifferent =>
    congr 2
    funext edge
    cases hedge : edge.1 == other with
    | true =>
        have hkept : ¬ (edge.1 == target) = true := fun hequal =>
          hdifferent (BEq.trans (BEq.symm hequal) hedge)
        simp [bne, hkept]
    | false => simp

theorem erase_eq_without (hdistinct : DistinctKeys row.edges) (target : V) :
    row.erase target = row.without target := by
  rw [erase, without, hdistinct.eraseP_eq_filter]
  rfl

/-- The edges of a row are the costs of its targets. -/
theorem cost?_eq_some_iff (hdistinct : DistinctKeys row.edges) :
    row.cost? target = some cost ↔
      ∃ stored, (stored, cost) ∈ row.edges ∧ (stored == target) = true := by
  rw [cost?, Option.map_eq_some_iff]
  constructor
  · intro hfound
    obtain ⟨⟨stored, found⟩, hfind, hcost⟩ := hfound
    obtain ⟨hmem, hkey⟩ := hdistinct.find?_eq_some_iff.mp hfind
    exact ⟨stored, hcost ▸ hmem, hkey⟩
  · intro hmem
    obtain ⟨stored, hmem, hkey⟩ := hmem
    exact ⟨(stored, cost), hdistinct.find?_eq_some_iff.mpr ⟨hmem, hkey⟩, rfl⟩

theorem length_without (hdistinct : DistinctKeys row.edges)
    (hpresent : (row.cost? target).isSome = true) :
    (row.without target).edges.length + 1 = row.edges.length := by
  obtain ⟨cost, hcost⟩ := Option.isSome_iff_exists.mp hpresent
  obtain ⟨stored, hmem, hkey⟩ := (cost?_eq_some_iff hdistinct).mp hcost
  exact hdistinct.length_filter hmem hkey

end EdgeList

namespace ListGraph

variable {V : Type u} {E : Type v} [BEq V] [Hashable V]

/-! ## What a call does -/

section Calls

variable {graph : ListGraph V E} {source target : V} {row : EdgeList V E}

theorem addEdge_of_source_none [Literal V] (hsource : graph.rows[source]? = none) (target : V)
    (cost : E) : graph.addEdge source target cost = (.error (.missing .source source), graph) := by
  rw [addEdge, hsource]

theorem addEdge_of_target_none [Literal V] (hsource : graph.rows[source]? = some row)
    (htarget : graph.hasVertex target = false) (cost : E) :
    graph.addEdge source target cost = (.error (.missing .target target), graph) := by
  rw [addEdge, hsource, htarget]
  rfl

theorem addEdge_of_some [Literal V] (hsource : graph.rows[source]? = some row)
    (htarget : graph.hasVertex target = true) (cost : E) :
    graph.addEdge source target cost =
      (.ok (), ⟨graph.rows.insert source (row.put target cost),
        graph.edgeCount + if (row.cost? target).isSome then 0 else 1⟩) := by
  rw [addEdge, hsource, htarget, ← EdgeList.isSome_place?]
  rfl

theorem removeEdge_of_source_none (hsource : graph.rows[source]? = none) (target : V) :
    graph.removeEdge source target = (false, graph) := by
  rw [removeEdge, hsource]

theorem removeEdge_of_target_none (hsource : graph.rows[source]? = some row)
    (habsent : (row.cost? target).isSome = false) :
    graph.removeEdge source target = (false, graph) := by
  rw [removeEdge, hsource]
  dsimp only
  rw [EdgeList.isSome_place?, habsent]
  rfl

theorem removeEdge_of_some (hsource : graph.rows[source]? = some row)
    (hpresent : (row.cost? target).isSome = true) :
    graph.removeEdge source target =
      (true, ⟨graph.rows.insert source (row.erase target), graph.edgeCount - 1⟩) := by
  rw [removeEdge, hsource]
  dsimp only
  rw [EdgeList.isSome_place?, hpresent]
  rfl

theorem removeVertex_of_none (habsent : graph.rows[source]? = none) :
    graph.removeVertex source = (false, graph) := by
  rw [removeVertex, habsent]

/-- The rows that are left without a vertex. -/
def rowsWithout (graph : ListGraph V E) (vertex : V) : Std.HashMap V (EdgeList V E) :=
  (graph.rows.erase vertex).map fun _ other => other.without vertex

end Calls

variable [EquivBEq V] [LawfulHashable V]

theorem getElem?_rowsWithout (graph : ListGraph V E) (vertex key : V) :
    (graph.rowsWithout vertex)[key]? =
      if (vertex == key) = true then none
      else graph.rows[key]?.map fun row => row.without vertex := by
  rw [rowsWithout, getElem?_map_values, Std.HashMap.getElem?_erase]
  split <;> rfl

theorem contains_rowsWithout (graph : ListGraph V E) (vertex key : V) :
    (graph.rowsWithout vertex).contains key = (!(vertex == key) && graph.hasVertex key) := by
  rw [rowsWithout, Std.HashMap.contains_map, Std.HashMap.contains_erase]
  rfl

theorem hasVertex_eq_isSome (graph : ListGraph V E) (vertex : V) :
    graph.hasVertex vertex = graph.rows[vertex]?.isSome :=
  Std.HashMap.contains_eq_isSome_getElem?

/-! ## Counting edges -/

section Count

/-- The number of edges in some rows. -/
def countEdges (rows : Std.HashMap V (EdgeList V E)) : Nat :=
  rows.fold (fun count _ row => count + row.edges.length) 0

variable (rows : Std.HashMap V (EdgeList V E))

omit [EquivBEq V] [LawfulHashable V] in
theorem countEdges_eq_sum :
    countEdges rows = (rows.toList.map fun entry => entry.2.edges.length).sum :=
  fold_add_eq_sum rows fun row => row.edges.length

theorem countEdges_insert (key : V) (row : EdgeList V E) :
    countEdges (rows.insert key row) = row.edges.length + countEdges (rows.erase key) := by
  rw [countEdges_eq_sum, countEdges_eq_sum]
  exact sum_toList_insert rows key row fun row => row.edges.length

omit [EquivBEq V] [LawfulHashable V] in
/-- The edges to a vertex and the edges that stay without it are all edges. -/
theorem countEdges_without_add (vertex : V) :
    countEdges (rows.map fun _ row => row.without vertex) +
      (rows.toList.map fun entry => entry.2.edgesTo vertex).sum = countEdges rows := by
  rw [countEdges_eq_sum, countEdges_eq_sum, (Std.HashMap.toList_map.map _).sum_eq, List.map_map,
    ← List.sum_map_add]
  congr 1
  apply List.map_congr_left
  intro entry _
  exact Nat.add_sub_cancel' (List.length_filter_le _ _)

omit [BEq V] [Hashable V] [EquivBEq V] [LawfulHashable V] in
/-- Amounts that are taken away in turn are taken away together. -/
theorem foldl_sub_eq_sub_sum (amounts : List Nat) (count : Nat) :
    amounts.foldl (fun left amount => left - amount) count = count - amounts.sum := by
  induction amounts generalizing count with
  | nil => rfl
  | cons amount amounts ih => rw [List.foldl_cons, ih, List.sum_cons, Nat.sub_sub]

end Count

/-- The edges of a graph are those of one vertex and those of all others. -/
theorem countEdges_eq_degree_add (graph : ListGraph V E) (vertex : V) :
    countEdges graph.rows = graph.degree vertex + countEdges (graph.rows.erase vertex) := by
  rw [countEdges_eq_sum, countEdges_eq_sum,
    sum_toList_eq_add graph.rows vertex fun row => row.edges.length, degree, edges]
  cases graph.rows[vertex]? <;> rfl

/-! ## Coherence -/

/-- The parts of a list graph fit together. -/
structure Coherent (graph : ListGraph V E) : Prop where
  /-- A row belongs to a vertex that is equal to its key. -/
  vertex_eq : ∀ {key : V} {row : EdgeList V E}, graph.rows[key]? = some row →
    (row.vertex == key) = true
  /-- A row has at most one edge to a target. -/
  distinct : ∀ {key : V} {row : EdgeList V E}, graph.rows[key]? = some row →
    DistinctKeys row.edges
  targets : ∀ {key : V} {row : EdgeList V E}, graph.rows[key]? = some row →
    ∀ edge ∈ row.edges, graph.hasVertex edge.1 = true
  edgeCount_eq : graph.edgeCount = countEdges graph.rows

variable {graph : ListGraph V E} {source target vertex : V} {row : EdgeList V E}

omit [EquivBEq V] [LawfulHashable V] in
theorem coherent_empty : (empty : ListGraph V E).Coherent where
  vertex_eq hrow := by simp [empty] at hrow
  distinct hrow := by simp [empty] at hrow
  targets hrow := by simp [empty] at hrow
  edgeCount_eq := by
    rw [countEdges_eq_sum, empty, Std.HashMap.toList_empty]
    rfl

theorem rows_eq_none_iff (graph : ListGraph V E) (vertex : V) :
    graph.rows[vertex]? = none ↔ graph.hasVertex vertex = false := by
  rw [hasVertex_eq_isSome, Option.isSome_eq_false_iff, Option.isNone_iff_eq_none]

theorem exists_rows_iff (graph : ListGraph V E) (vertex : V) :
    (∃ row, graph.rows[vertex]? = some row) ↔ graph.hasVertex vertex = true := by
  rw [hasVertex_eq_isSome, Option.isSome_iff_exists]

theorem degree_of_none (habsent : graph.hasVertex vertex = false) : graph.degree vertex = 0 := by
  rw [degree, edges, (rows_eq_none_iff graph vertex).mpr habsent]
  rfl

omit [EquivBEq V] [LawfulHashable V] in
theorem degree_of_some (hrow : graph.rows[vertex]? = some row) :
    graph.degree vertex = row.edges.length := by
  rw [degree, edges, hrow]
  rfl

/-- A row is written for a vertex, and the counter follows. -/
theorem Coherent.insertRow (hcoherent : graph.Coherent) {count : Nat}
    (hvertex : (row.vertex == vertex) = true) (hdistinct : DistinctKeys row.edges)
    (htargets : ∀ edge ∈ row.edges, graph.hasVertex edge.1 = true)
    (hcount : count + graph.degree vertex = graph.edgeCount + row.edges.length) :
    (⟨graph.rows.insert vertex row, count⟩ : ListGraph V E).Coherent where
  vertex_eq := by
    intro key other hother
    rw [Std.HashMap.getElem?_insert] at hother
    split at hother
    next hsame =>
      rw [← Option.some.inj hother]
      exact BEq.trans hvertex hsame
    next => exact hcoherent.vertex_eq hother
  distinct := by
    intro key other hother
    rw [Std.HashMap.getElem?_insert] at hother
    split at hother
    next =>
      rw [← Option.some.inj hother]
      exact hdistinct
    next => exact hcoherent.distinct hother
  targets := by
    intro key other hother edge hedge
    rw [hasVertex, Std.HashMap.contains_insert, Bool.or_eq_true]
    rw [Std.HashMap.getElem?_insert] at hother
    split at hother
    next =>
      rw [← Option.some.inj hother] at hedge
      exact Or.inr (htargets edge hedge)
    next => exact Or.inr (hcoherent.targets hother edge hedge)
  edgeCount_eq := by
    have hbefore := countEdges_eq_degree_add graph vertex
    rw [← hcoherent.edgeCount_eq] at hbefore
    rw [countEdges_insert]
    dsimp only
    omega

theorem Coherent.addVertex (hcoherent : graph.Coherent)
    (habsent : graph.hasVertex vertex = false) :
    ({ graph with rows := graph.rows.insert vertex ⟨vertex, []⟩ } :
      ListGraph V E).Coherent := by
  apply hcoherent.insertRow
  · exact BEq.rfl
  · exact List.Pairwise.nil
  · exact fun edge hedge => absurd hedge List.not_mem_nil
  · rw [degree_of_none habsent]
    rfl

theorem Coherent.addEdge (hcoherent : graph.Coherent) (hrow : graph.rows[source]? = some row)
    (htarget : graph.hasVertex target = true) (cost : E) :
    (⟨graph.rows.insert source (row.put target cost),
      graph.edgeCount + if (row.cost? target).isSome then 0 else 1⟩ :
        ListGraph V E).Coherent := by
  apply hcoherent.insertRow
  · rw [EdgeList.vertex_put]
    exact hcoherent.vertex_eq hrow
  · exact EdgeList.distinctKeys_put (hcoherent.distinct hrow) target cost
  · intro edge hedge
    rcases EdgeList.mem_put hedge with ⟨old, hold, hsame⟩ | hnew
    · rw [hsame]
      exact hcoherent.targets hrow old hold
    · rw [hnew]
      exact htarget
  · rw [degree_of_some hrow, EdgeList.length_put]
    omega

theorem Coherent.removeEdge (hcoherent : graph.Coherent) (hrow : graph.rows[source]? = some row)
    (hpresent : (row.cost? target).isSome = true) :
    (⟨graph.rows.insert source (row.without target), graph.edgeCount - 1⟩ :
      ListGraph V E).Coherent := by
  have hdistinct := hcoherent.distinct hrow
  apply hcoherent.insertRow
  · rw [EdgeList.vertex_without]
    exact hcoherent.vertex_eq hrow
  · exact List.Pairwise.filter _ hdistinct
  · intro edge hedge
    exact hcoherent.targets hrow edge (List.mem_of_mem_filter hedge)
  · have hcount := countEdges_eq_degree_add graph source
    rw [← hcoherent.edgeCount_eq, degree_of_some hrow] at hcount
    have hlength := EdgeList.length_without hdistinct hpresent
    rw [degree_of_some hrow]
    omega

/-- The numbers of the edges that go with a vertex: those that leave it, and then for each other
row those that lead to it. -/
def losses (graph : ListGraph V E) (vertex : V) : List Nat :=
  graph.degree vertex ::
    (graph.rows.erase vertex).toList.map fun entry => entry.2.edgesTo vertex

omit [EquivBEq V] [LawfulHashable V] in
/-- A removal takes the lost edges from the counter, one row after the other. -/
theorem removeVertex_of_some (hrow : graph.rows[vertex]? = some row) :
    graph.removeVertex vertex =
      (true, ⟨graph.rowsWithout vertex,
        (graph.losses vertex).foldl (fun left amount => left - amount) graph.edgeCount⟩) := by
  rw [ListGraph.removeVertex, hrow]
  dsimp only
  rw [Std.HashMap.fold_eq_foldl_toList, losses, List.foldl_cons, degree_of_some hrow,
    List.foldl_map]
  rfl

/-- The lost edges and those that are left are all edges. -/
theorem Coherent.edgeCount_eq_add_losses (hcoherent : graph.Coherent) (vertex : V) :
    graph.edgeCount =
      countEdges (graph.rowsWithout vertex) + (graph.losses vertex).sum := by
  rw [hcoherent.edgeCount_eq, countEdges_eq_degree_add graph vertex, losses, List.sum_cons,
    Nat.add_left_comm, rowsWithout, countEdges_without_add]

/-- The counter after a removal is the number of the edges that are left. -/
theorem Coherent.removeVertex_of_some (hcoherent : graph.Coherent)
    (hrow : graph.rows[vertex]? = some row) :
    graph.removeVertex vertex =
      (true, ⟨graph.rowsWithout vertex, countEdges (graph.rowsWithout vertex)⟩) := by
  rw [ListGraph.removeVertex_of_some hrow, foldl_sub_eq_sub_sum,
    hcoherent.edgeCount_eq_add_losses vertex, Nat.add_sub_cancel]

theorem Coherent.rowsWithout (hcoherent : graph.Coherent) (vertex : V) :
    (⟨graph.rowsWithout vertex, countEdges (graph.rowsWithout vertex)⟩ :
      ListGraph V E).Coherent where
  vertex_eq := by
    intro key other hother
    rw [getElem?_rowsWithout] at hother
    split at hother
    next => exact absurd hother.symm (Option.some_ne_none other)
    next =>
      obtain ⟨old, hold, hchanged⟩ := Option.map_eq_some_iff.mp hother
      rw [← hchanged, EdgeList.vertex_without]
      exact hcoherent.vertex_eq hold
  distinct := by
    intro key other hother
    rw [getElem?_rowsWithout] at hother
    split at hother
    next => exact absurd hother.symm (Option.some_ne_none other)
    next =>
      obtain ⟨old, hold, hchanged⟩ := Option.map_eq_some_iff.mp hother
      rw [← hchanged]
      exact List.Pairwise.filter _ (hcoherent.distinct hold)
  targets := by
    intro key other hother edge hedge
    rw [getElem?_rowsWithout] at hother
    split at hother
    next => exact absurd hother.symm (Option.some_ne_none other)
    next =>
      obtain ⟨old, hold, hchanged⟩ := Option.map_eq_some_iff.mp hother
      rw [← hchanged] at hedge
      obtain ⟨hmem, hkept⟩ := List.mem_filter.mp hedge
      rw [hasVertex, contains_rowsWithout, BEq.comm, Bool.and_eq_true]
      exact ⟨hkept, hcoherent.targets hold edge hmem⟩
  edgeCount_eq := rfl

/-- Every call keeps the parts of the graph fitting together. -/
theorem Coherent.perform [Literal V] (hcoherent : graph.Coherent) (call : GraphCall V E) :
    (DirectedGraph.perform graph call).2.Coherent := by
  cases call with
  | addVertex memory vertex =>
      change (graph.addVertex vertex).2.Coherent
      rw [ListGraph.addVertex]
      cases hpresent : graph.hasVertex vertex with
      | true => exact hcoherent
      | false => exact hcoherent.addVertex hpresent
  | addEdge source target cost =>
      change (graph.addEdge source target cost).2.Coherent
      cases hrow : graph.rows[source]? with
      | none => rwa [addEdge_of_source_none hrow]
      | some row =>
          cases htarget : graph.hasVertex target with
          | false => rwa [addEdge_of_target_none hrow htarget]
          | true =>
              rw [addEdge_of_some hrow htarget]
              exact hcoherent.addEdge hrow htarget cost
  | removeEdge source target =>
      change (graph.removeEdge source target).2.Coherent
      cases hrow : graph.rows[source]? with
      | none => rwa [removeEdge_of_source_none hrow]
      | some row =>
          cases hpresent : (row.cost? target).isSome with
          | false => rwa [removeEdge_of_target_none hrow hpresent]
          | true =>
              rw [removeEdge_of_some hrow hpresent,
                EdgeList.erase_eq_without (hcoherent.distinct hrow)]
              exact hcoherent.removeEdge hrow hpresent
  | removeVertex vertex =>
      change (graph.removeVertex vertex).2.Coherent
      cases hrow : graph.rows[vertex]? with
      | none => rwa [removeVertex_of_none hrow]
      | some row =>
          rw [hcoherent.removeVertex_of_some hrow]
          exact hcoherent.rowsWithout vertex
  | clear => exact coherent_empty

end ListGraph

end Collections
