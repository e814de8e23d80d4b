import Mathlib
import Collections.Proofs.Graph.ListAgreement

/-!
# List graphs and the order in which edges were created

A list graph keeps one list of edges for each vertex and counts the edges apart from them.
What it shows can be read off a single list of all edges in the order of their creation,
where overwriting a cost leaves an edge in its place: the edges of a vertex are those of this
list that leave it, and the counter is its length.
-/

namespace Collections

universe u v

/-! ## Edges in the order of their creation -/

/-- An edge with the instances of its two vertices that were given when it was created. -/
structure CreatedEdge (V : Type u) (E : Type v) where
  source : V
  target : V
  cost : E

namespace CreatedEdge

variable {V : Type u} {E : Type v} [BEq V]

/-- The edge leads from one vertex to another. -/
def joins (edge : CreatedEdge V E) (source target : V) : Bool :=
  edge.source == source && edge.target == target

/-- The edge leaves a vertex or leads to it. -/
def touches (edge : CreatedEdge V E) (vertex : V) : Bool :=
  edge.source == vertex || edge.target == vertex

/-- The edge with another cost, if it leads from one vertex to another. -/
def overwrite (source target : V) (cost : E) (edge : CreatedEdge V E) : CreatedEdge V E :=
  if edge.joins source target then { edge with cost := cost } else edge

/-- The edges that leave a vertex, each as its target and its cost. -/
def outgoing (edges : List (CreatedEdge V E)) (vertex : V) : List (V × E) :=
  (edges.filter fun edge => edge.source == vertex).map fun edge => (edge.target, edge.cost)

theorem outgoing_concat (edges : List (CreatedEdge V E)) (edge : CreatedEdge V E) (vertex : V) :
    outgoing (edges ++ [edge]) vertex =
      if (edge.source == vertex) = true then outgoing edges vertex ++ [(edge.target, edge.cost)]
      else outgoing edges vertex := by
  rw [outgoing, List.filter_append, List.map_append, List.filter_singleton]
  cases edge.source == vertex with
  | false => exact List.append_nil _
  | true => rfl

@[simp]
theorem source_overwrite (source target : V) (cost : E) (edge : CreatedEdge V E) :
    (edge.overwrite source target cost).source = edge.source := by
  rw [overwrite]
  split <;> rfl

variable [EquivBEq V] {edge : CreatedEdge V E} {source vertex : V}

theorem unequal_source (hdifferent : (source == vertex) = false)
    (hsource : (edge.source == vertex) = true) : (edge.source == source) = false := by
  rw [BEq.congr_left hsource, BEq.comm]
  exact hdifferent

/-- An edge that leaves a vertex joins it, or an equal one, to its target. -/
theorem joins_of_equal (hsame : (source == vertex) = true)
    (hsource : (edge.source == vertex) = true) (target : V) :
    edge.joins source target = (edge.target == target) := by
  rw [joins, BEq.trans hsource (BEq.symm hsame), Bool.true_and]

theorem joins_of_unequal (hdifferent : (source == vertex) = false)
    (hsource : (edge.source == vertex) = true) (target : V) :
    edge.joins source target = false := by
  rw [joins, unequal_source hdifferent hsource, Bool.false_and]

variable (edges : List (CreatedEdge V E)) (source target vertex : V)

/-- Overwriting the cost between two vertices changes what leaves the first one. -/
theorem outgoing_map_overwrite (cost : E) :
    outgoing (edges.map (overwrite source target cost)) vertex =
      if (source == vertex) = true then
        (outgoing edges vertex).map fun edge => if edge.1 == target then (edge.1, cost) else edge
      else outgoing edges vertex := by
  have hkept : (fun edge => edge.source == vertex) ∘ overwrite source target cost =
      fun edge : CreatedEdge V E => edge.source == vertex := by
    funext edge
    rw [Function.comp_apply, source_overwrite]
  rw [outgoing, outgoing, List.filter_map, hkept, List.map_map]
  cases hsame : source == vertex with
  | true =>
      rw [if_pos rfl, List.map_map]
      apply List.map_congr_left
      intro edge hedge
      have hsource := (List.mem_filter.mp hedge).2
      rw [Function.comp_apply, Function.comp_apply, overwrite, joins_of_equal hsame hsource]
      cases edge.target == target <;> rfl
  | false =>
      rw [if_neg Bool.false_ne_true]
      apply List.map_congr_left
      intro edge hedge
      have hsource := (List.mem_filter.mp hedge).2
      rw [Function.comp_apply, overwrite, joins_of_unequal hsame hsource]
      rfl

/-- Taking out an edge between two vertices changes what leaves the first one. -/
theorem outgoing_eraseP :
    outgoing (edges.eraseP fun edge => edge.joins source target) vertex =
      if (source == vertex) = true then
        (outgoing edges vertex).eraseP fun edge => edge.1 == target
      else outgoing edges vertex := by
  cases hsame : source == vertex with
  | true =>
      have hjoins : (fun edge : CreatedEdge V E => edge.joins source target) =
          fun edge => edge.target == target && edge.source == vertex := by
        funext edge
        rw [joins, BEq.congr_right hsame, Bool.and_comm]
      rw [if_pos rfl, outgoing, outgoing, List.eraseP_map, List.eraseP_filter, hjoins]
      rfl
  | false =>
      rw [if_neg Bool.false_ne_true]
      rcases List.exists_or_eq_self_of_eraseP (fun edge => edge.joins source target) edges with
        hkept | ⟨erased, front, back, -, herased, hedges, hrest⟩
      · rw [hkept]
      · -- What is taken out does not leave the vertex, so the filter never kept it.
        have hsource : ¬ (erased.source == vertex) = true := fun hsource => by
          rw [joins_of_unequal hsame hsource] at herased
          exact Bool.false_ne_true herased
        rw [hrest, hedges, outgoing, outgoing, List.filter_append, List.filter_append,
          List.filter_cons, if_neg hsource]

/-- Without all that touches a vertex, nothing leaves it, and nothing leads to it. -/
theorem outgoing_filter_touches (removed : V) :
    outgoing (edges.filter fun edge => !edge.touches removed) vertex =
      if (removed == vertex) = true then []
      else (outgoing edges vertex).filter fun edge => edge.1 != removed := by
  rw [outgoing, outgoing, List.filter_map, List.filter_filter, List.filter_filter]
  cases hsame : removed == vertex with
  | true =>
      rw [if_pos rfl, List.map_eq_nil_iff, List.filter_eq_nil_iff]
      intro edge _
      rw [touches, BEq.congr_right hsame]
      cases edge.source == vertex <;> simp
  | false =>
      rw [if_neg Bool.false_ne_true]
      congr 1
      apply List.filter_congr
      intro edge _
      cases hsource : edge.source == vertex with
      | false => simp
      | true => simp [touches, unequal_source hsame hsource, bne]

omit [EquivBEq V] in
/-- The edge between two vertices is looked up among those that leave the first one. -/
theorem find?_joins :
    (edges.find? fun edge => edge.joins source target).map (fun edge => edge.cost) =
      ((outgoing edges source).find? fun edge => edge.1 == target).map Prod.snd := by
  rw [outgoing, List.find?_map, List.find?_filter, Option.map_map]
  congr 2
  funext edge
  rw [joins, Bool.decide_and, Bool.decide_eq_true, Bool.decide_eq_true]
  rfl

omit [EquivBEq V] in
theorem any_joins : (edges.any fun edge => edge.joins source target) =
    (outgoing edges source).any fun edge => edge.1 == target := by
  rw [outgoing, List.any_map, List.any_filter]
  rfl

/-- Setting aside the edges that leave a vertex changes nothing for another one. -/
theorem outgoing_filter_source {other : V} (hdifferent : (vertex == other) = false) :
    outgoing (edges.filter fun edge => !(edge.source == vertex)) other =
      outgoing edges other := by
  rw [outgoing, outgoing, List.filter_filter]
  congr 1
  apply List.filter_congr
  intro edge _
  cases hsource : edge.source == other with
  | false => rfl
  | true =>
      rw [unequal_source hdifferent hsource]
      rfl

/-- Each edge leaves exactly one of some different vertices. -/
theorem sum_length_outgoing {vertices : List V}
    (hdistinct : vertices.Pairwise fun first second => ¬ (first == second) = true)
    {edges : List (CreatedEdge V E)}
    (hsources : ∀ edge ∈ edges, ∃ vertex ∈ vertices, (vertex == edge.source) = true) :
    (vertices.map fun vertex => (outgoing edges vertex).length).sum = edges.length := by
  induction vertices generalizing edges with
  | nil =>
      cases edges with
      | nil => rfl
      | cons edge edges =>
          obtain ⟨vertex, hvertex, -⟩ := hsources edge List.mem_cons_self
          exact absurd hvertex List.not_mem_nil
  | cons vertex vertices ih =>
      obtain ⟨hvertex, hrest⟩ := List.pairwise_cons.mp hdistinct
      -- Once the edges of the first vertex are set aside, all others leave the remaining ones.
      have hremaining : ∀ edge ∈ edges.filter fun edge => !(edge.source == vertex),
          ∃ other ∈ vertices, (other == edge.source) = true := by
        intro edge hedge
        obtain ⟨hmem, hkept⟩ := List.mem_filter.mp hedge
        obtain ⟨other, hother, hsame⟩ := hsources edge hmem
        rcases List.mem_cons.mp hother with hfirst | hlater
        · rw [← hfirst, BEq.comm, hsame] at hkept
          exact absurd hkept Bool.false_ne_true
        · exact ⟨other, hlater, hsame⟩
      calc ((vertex :: vertices).map fun other => (outgoing edges other).length).sum
          = (outgoing edges vertex).length +
              (vertices.map fun other => (outgoing edges other).length).sum := by
            rw [List.map_cons, List.sum_cons]
        _ = (outgoing edges vertex).length +
              (edges.filter fun edge => !(edge.source == vertex)).length := by
            rw [← ih hrest hremaining]
            congr 2
            apply List.map_congr_left
            intro other hother
            rw [outgoing_filter_source _ _ (Bool.eq_false_iff.mpr (hvertex other hother))]
        _ = edges.length := by
            rw [outgoing, List.length_map]
            exact (List.length_eq_length_filter_add _).symm

end CreatedEdge

/-! ## Logs of edges -/

/-- The vertices of a graph and its edges in the order of their creation. -/
structure EdgeLog (V : Type u) (E : Type v) [BEq V] [EquivBEq V] where
  vertices : Finset (EqClass V)
  created : List (CreatedEdge V E)

namespace EdgeLog

variable {V : Type u} {E : Type v} [BEq V] [EquivBEq V]

def empty : EdgeLog V E :=
  ⟨∅, []⟩

section Changes

variable (log : EdgeLog V E)

def insertVertex (vertex : V) : EdgeLog V E :=
  { log with vertices := insert (.of vertex) log.vertices }

/-- The edges that leave a vertex, each as its target and its cost. -/
def edges (vertex : V) : List (V × E) :=
  CreatedEdge.outgoing log.created vertex

def hasEdge (source target : V) : Bool :=
  log.created.any fun edge => edge.joins source target

def edgeCost? (source target : V) : Option E :=
  (log.created.find? fun edge => edge.joins source target).map CreatedEdge.cost

theorem hasEdge_eq (source target : V) :
    log.hasEdge source target = (log.edges source).any fun edge => edge.1 == target :=
  CreatedEdge.any_joins log.created source target

theorem edgeCost?_eq (source target : V) : log.edgeCost? source target =
    ((log.edges source).find? fun edge => edge.1 == target).map Prod.snd :=
  CreatedEdge.find?_joins log.created source target

/-- Overwrites the cost of an edge in its place, or else appends the edge. -/
def setCost (source target : V) (cost : E) : EdgeLog V E :=
  { log with
    created :=
      if log.hasEdge source target then
        log.created.map (CreatedEdge.overwrite source target cost)
      else
        log.created ++ [⟨source, target, cost⟩] }

def deleteEdge (source target : V) : EdgeLog V E :=
  { log with created := log.created.eraseP fun edge => edge.joins source target }

/-- Takes out a vertex and every edge with it at an end. -/
def deleteVertex (vertex : V) : EdgeLog V E where
  vertices := log.vertices.erase (.of vertex)
  created := log.created.filter fun edge => !edge.touches vertex

end Changes

/-- The answer to a call and what it does to the log. -/
def perform [Literal V] (log : EdgeLog V E) : GraphCall V E → GraphAnswer × EdgeLog V E
  | .addVertex _ vertex =>
    if .of vertex ∈ log.vertices then
      (.added (.error (.duplicate vertex)), log)
    else
      (.added (.ok true), log.insertVertex vertex)
  | .addEdge source target cost =>
    if .of source ∈ log.vertices then
      if .of target ∈ log.vertices then
        (.connected (.ok ()), log.setCost source target cost)
      else
        (.connected (.error (.missing .target target)), log)
    else
      (.connected (.error (.missing .source source)), log)
  | .removeEdge source target =>
    if log.hasEdge source target then
      (.removed true, log.deleteEdge source target)
    else
      (.removed false, log)
  | .removeVertex vertex =>
    if .of vertex ∈ log.vertices then
      (.removed true, log.deleteVertex vertex)
    else
      (.removed false, log)
  | .clear => (.cleared, empty)

end EdgeLog

/-! ## List graphs and their logs -/

namespace EdgeList

variable {V : Type u} {E : Type v} [BEq V] {row : EdgeList V E} {target : V}

theorem isSome_cost? (row : EdgeList V E) (target : V) :
    (row.cost? target).isSome = row.edges.any fun edge => edge.1 == target := by
  rw [cost?, Option.isSome_map, List.isSome_find?]

theorem edges_put_of_none (habsent : row.cost? target = none) (cost : E) :
    (row.put target cost).edges = row.edges ++ [(target, cost)] := by
  rcases put_cases row target cost with ⟨front, stored, old, back, hedges, hkey, -, -⟩ |
    ⟨-, hput⟩
  · rw [cost?, Option.map_eq_none_iff, List.find?_eq_none, hedges] at habsent
    exact absurd hkey (habsent (stored, old) (by simp))
  · rw [hput]

/-- A write to a target that has an edge overwrites the costs of all edges to it, of which
there is one. -/
theorem edges_put_of_some [EquivBEq V] (hdistinct : DistinctKeys row.edges)
    (hpresent : (row.cost? target).isSome = true) (cost : E) :
    (row.put target cost).edges =
      row.edges.map fun edge => if edge.1 == target then (edge.1, cost) else edge := by
  rcases put_cases row target cost with ⟨front, stored, old, back, hedges, hkey, -, hput⟩ |
    ⟨habsent, -⟩
  · -- No other edge leads to the target, so the change of all is the change of one.
    rw [hedges] at hdistinct
    obtain ⟨hfront, hback⟩ := unequal_of_split hdistinct hkey
    have hkept : ∀ edges : List (V × E), (∀ edge ∈ edges, ¬ (edge.1 == target) = true) →
        edges.map (fun edge => if edge.1 == target then (edge.1, cost) else edge) = edges := by
      intro edges habsent
      calc edges.map (fun edge => if edge.1 == target then (edge.1, cost) else edge)
          = edges.map id := List.map_congr_left fun edge hedge => if_neg (habsent edge hedge)
        _ = edges := List.map_id edges
    rw [hput, hedges, List.map_append, List.map_cons, hkept front hfront, hkept back hback,
      if_pos hkey]
  · rw [isSome_cost?, List.any_eq_true] at hpresent
    obtain ⟨edge, hedge, hkey⟩ := hpresent
    exact absurd hkey (habsent edge hedge)

end EdgeList

namespace ListGraph

variable {V : Type u} {E : Type v} [BEq V] [Hashable V] [EquivBEq V]

/-- A graph has the vertices of a log, and for each vertex the edges that leave it in the
log, in this order. -/
structure Follows (graph : ListGraph V E) (log : EdgeLog V E) : Prop where
  vertices : ∀ vertex, graph.hasVertex vertex = decide (.of vertex ∈ log.vertices)
  edges : ∀ vertex, graph.edges vertex = log.edges vertex
  sources : ∀ edge ∈ log.created, .of edge.source ∈ log.vertices

section Steps

variable {graph : ListGraph V E} {log : EdgeLog V E} {source target vertex : V}
variable {row : EdgeList V E}

omit [EquivBEq V] in
theorem edges_of_some (hrow : graph.rows[vertex]? = some row) : graph.edges vertex = row.edges := by
  rw [edges, hrow]
  rfl

omit [EquivBEq V] in
theorem edgeCost?_eq_find? (graph : ListGraph V E) (source target : V) :
    graph.edgeCost? source target =
      ((graph.edges source).find? fun edge => edge.1 == target).map Prod.snd := by
  rw [edgeCost?, edges]
  cases graph.rows[source]? <;> rfl

theorem Follows.isSome_cost?_row (hfollows : graph.Follows log)
    (hrow : graph.rows[source]? = some row) (target : V) :
    (row.cost? target).isSome = log.hasEdge source target := by
  rw [EdgeList.isSome_cost?, log.hasEdge_eq, ← hfollows.edges, edges_of_some hrow]

variable [LawfulHashable V]

theorem edges_eq_nil (habsent : graph.hasVertex vertex = false) : graph.edges vertex = [] := by
  rw [edges, (rows_eq_none_iff graph vertex).mpr habsent]
  rfl

theorem edges_insert (graph : ListGraph V E) (source : V) (row : EdgeList V E) (count : Nat)
    (vertex : V) :
    (⟨graph.rows.insert source row, count⟩ : ListGraph V E).edges vertex =
      if (source == vertex) = true then row.edges else graph.edges vertex := by
  rw [edges, edges, Std.HashMap.getElem?_insert]
  split <;> rfl

theorem edges_rowsWithout (graph : ListGraph V E) (removed : V) (count : Nat) (vertex : V) :
    (⟨graph.rowsWithout removed, count⟩ : ListGraph V E).edges vertex =
      if (removed == vertex) = true then []
      else (graph.edges vertex).filter fun edge => edge.1 != removed := by
  rw [edges, edges, getElem?_rowsWithout]
  split
  · rfl
  · cases graph.rows[vertex]? <;> rfl

/-- A row of a vertex is that of an equal vertex. -/
theorem Follows.edges_row (hfollows : graph.Follows log) (hrow : graph.rows[source]? = some row)
    (hsame : (source == vertex) = true) : row.edges = log.edges vertex := by
  rw [← hfollows.edges, edges_of_some]
  rw [← Std.HashMap.getElem?_congr hsame, hrow]

theorem follows_empty : (empty : ListGraph V E).Follows .empty where
  vertices vertex := by
    rw [hasVertex, empty, EdgeLog.empty]
    simp
  edges vertex := by
    rw [edges, empty]
    simp [EdgeLog.edges, EdgeLog.empty, CreatedEdge.outgoing]
  sources edge hedge := absurd hedge List.not_mem_nil

theorem Follows.addVertex (hfollows : graph.Follows log)
    (habsent : graph.hasVertex vertex = false) :
    ({ graph with rows := graph.rows.insert vertex ⟨vertex, []⟩ } : ListGraph V E).Follows
      (log.insertVertex vertex) where
  vertices := hasVertex_insert_new hfollows.vertices vertex ⟨vertex, []⟩ graph.edgeCount
  edges other := by
    rw [edges_insert]
    split
    next hsame =>
      have hother : graph.hasVertex other = false := by
        rw [hasVertex, ← Std.HashMap.contains_congr hsame]
        exact habsent
      exact (edges_eq_nil hother).symm.trans (hfollows.edges other)
    next => exact hfollows.edges other
  sources edge hedge := Finset.mem_insert_of_mem (hfollows.sources edge hedge)

/-- A row is written for a vertex, and what leaves the vertex in the log follows. -/
theorem Follows.insertRow (hfollows : graph.Follows log) (hrow : graph.rows[source]? = some row)
    {changed : EdgeList V E} {created : List (CreatedEdge V E)}
    (hedges : ∀ vertex, CreatedEdge.outgoing created vertex =
      if (source == vertex) = true then changed.edges else log.edges vertex)
    (hsources : ∀ edge ∈ created, .of edge.source ∈ log.vertices) (count : Nat) :
    (⟨graph.rows.insert source changed, count⟩ : ListGraph V E).Follows
      ⟨log.vertices, created⟩ where
  vertices vertex := by
    rw [hasVertex_insert hrow, hfollows.vertices]
  edges vertex := by
    rw [edges_insert, hfollows.edges]
    exact (hedges vertex).symm
  sources := hsources

theorem Follows.addEdge (hfollows : graph.Follows log) (hcoherent : graph.Coherent)
    (hrow : graph.rows[source]? = some row) (hsource : .of source ∈ log.vertices) (cost : E)
    (count : Nat) :
    (⟨graph.rows.insert source (row.put target cost), count⟩ : ListGraph V E).Follows
      (log.setCost source target cost) := by
  rw [EdgeLog.setCost, ← hfollows.isSome_cost?_row hrow]
  apply hfollows.insertRow hrow
  · intro vertex
    cases hfound : row.cost? target with
    | some old =>
        rw [Option.isSome_some, if_pos rfl, CreatedEdge.outgoing_map_overwrite,
          EdgeList.edges_put_of_some (hcoherent.distinct hrow) (hfound ▸ rfl)]
        split
        next hsame => rw [hfollows.edges_row hrow hsame, EdgeLog.edges]
        next => rfl
    | none =>
        rw [Option.isSome_none, if_neg Bool.false_ne_true, CreatedEdge.outgoing_concat,
          EdgeList.edges_put_of_none hfound]
        split
        next hsame => rw [hfollows.edges_row hrow hsame, EdgeLog.edges]
        next => rfl
  · intro edge hedge
    split at hedge
    next =>
      obtain ⟨old, hold, rfl⟩ := List.mem_map.mp hedge
      rw [CreatedEdge.source_overwrite]
      exact hfollows.sources old hold
    next =>
      rcases List.mem_append.mp hedge with hold | hnew
      · exact hfollows.sources edge hold
      · rw [List.mem_singleton.mp hnew]
        exact hsource

theorem Follows.removeEdge (hfollows : graph.Follows log)
    (hrow : graph.rows[source]? = some row) (count : Nat) :
    (⟨graph.rows.insert source (row.erase target), count⟩ : ListGraph V E).Follows
      (log.deleteEdge source target) := by
  apply hfollows.insertRow hrow
  · intro vertex
    rw [CreatedEdge.outgoing_eraseP]
    split
    next hsame => rw [EdgeList.erase, hfollows.edges_row hrow hsame, EdgeLog.edges]
    next => rfl
  · intro edge hedge
    exact hfollows.sources edge (List.mem_of_mem_eraseP hedge)

theorem Follows.rowsWithout (hfollows : graph.Follows log) (vertex : V) (count : Nat) :
    (⟨graph.rowsWithout vertex, count⟩ : ListGraph V E).Follows (log.deleteVertex vertex) where
  vertices := hasVertex_rowsWithout hfollows.vertices vertex count
  edges other := by
    rw [edges_rowsWithout, hfollows.edges]
    exact (CreatedEdge.outgoing_filter_touches log.created other vertex).symm
  sources edge hedge := by
    obtain ⟨hmem, hkept⟩ := List.mem_filter.mp hedge
    rw [CreatedEdge.touches, Bool.not_eq_true', Bool.or_eq_false_iff] at hkept
    refine Finset.mem_erase.mpr ⟨?_, hfollows.sources edge hmem⟩
    rw [ne_eq, EqClass.of_eq_of_iff, hkept.1]
    exact Bool.false_ne_true

/-! ### Calls -/

variable [Literal V]

theorem Follows.perform_addVertex (hfollows : graph.Follows log) (memory : Memory) (vertex : V) :
    GraphAnswer.added ((graph.addVertex vertex).1.map fun _ => true) =
        (log.perform (.addVertex memory vertex)).1 ∧
      (graph.addVertex vertex).2.Follows (log.perform (.addVertex memory vertex)).2 := by
  rw [ListGraph.addVertex, EdgeLog.perform]
  cases hpresent : graph.hasVertex vertex with
  | true =>
      rw [if_pos rfl, if_pos ((hasVertex_iff_mem hfollows.vertices vertex).mp hpresent)]
      exact ⟨rfl, hfollows⟩
  | false =>
      rw [if_neg Bool.false_ne_true,
        if_neg (notMem_of_hasVertex_eq_false hfollows.vertices hpresent)]
      exact ⟨rfl, hfollows.addVertex hpresent⟩

theorem Follows.perform_addEdge (hfollows : graph.Follows log) (hcoherent : graph.Coherent)
    (source target : V) (cost : E) :
    GraphAnswer.connected (graph.addEdge source target cost).1 =
        (log.perform (.addEdge source target cost)).1 ∧
      (graph.addEdge source target cost).2.Follows
        (log.perform (.addEdge source target cost)).2 := by
  rw [EdgeLog.perform]
  cases hrow : graph.rows[source]? with
  | none =>
      rw [addEdge_of_source_none hrow, if_neg (notMem_of_none hfollows.vertices hrow)]
      exact ⟨rfl, hfollows⟩
  | some row =>
      have hsource := mem_of_some hfollows.vertices hrow
      rw [if_pos hsource]
      cases hfound : graph.hasVertex target with
      | false =>
          rw [addEdge_of_target_none hrow hfound,
            if_neg (notMem_of_hasVertex_eq_false hfollows.vertices hfound)]
          exact ⟨rfl, hfollows⟩
      | true =>
          rw [addEdge_of_some hrow hfound,
            if_pos ((hasVertex_iff_mem hfollows.vertices target).mp hfound)]
          exact ⟨rfl, hfollows.addEdge hcoherent hrow hsource cost _⟩

theorem Follows.perform_removeEdge (hfollows : graph.Follows log) (source target : V) :
    GraphAnswer.removed (graph.removeEdge source target).1 =
        (log.perform (.removeEdge source target)).1 ∧
      (graph.removeEdge source target).2.Follows
        (log.perform (.removeEdge source target)).2 := by
  rw [EdgeLog.perform]
  cases hrow : graph.rows[source]? with
  | none =>
      have hnone : log.hasEdge source target = false := by
        have hnothing : log.edges source = [] := by
          rw [← hfollows.edges, edges_eq_nil ((rows_eq_none_iff graph source).mp hrow)]
        rw [log.hasEdge_eq, hnothing]
        rfl
      rw [removeEdge_of_source_none hrow, hnone]
      exact ⟨rfl, hfollows⟩
  | some row =>
      have hcost := hfollows.isSome_cost?_row hrow target
      cases hpresent : log.hasEdge source target with
      | false =>
          rw [removeEdge_of_target_none hrow (hcost.trans hpresent)]
          exact ⟨rfl, hfollows⟩
      | true =>
          rw [removeEdge_of_some hrow (hcost.trans hpresent)]
          exact ⟨rfl, hfollows.removeEdge hrow _⟩

theorem Follows.perform_removeVertex (hfollows : graph.Follows log) (vertex : V) :
    GraphAnswer.removed (graph.removeVertex vertex).1 =
        (log.perform (.removeVertex vertex)).1 ∧
      (graph.removeVertex vertex).2.Follows (log.perform (.removeVertex vertex)).2 := by
  rw [EdgeLog.perform]
  cases hrow : graph.rows[vertex]? with
  | none =>
      rw [removeVertex_of_none hrow, if_neg (notMem_of_none hfollows.vertices hrow)]
      exact ⟨rfl, hfollows⟩
  | some row =>
      rw [removeVertex_of_some hrow, if_pos (mem_of_some hfollows.vertices hrow)]
      exact ⟨rfl, hfollows.rowsWithout vertex _⟩

/-- A call has the answer that the log gives and changes both alike. -/
theorem Follows.perform (hfollows : graph.Follows log) (hcoherent : graph.Coherent)
    (call : GraphCall V E) :
    (DirectedGraph.perform graph call).1 = (log.perform call).1 ∧
      (DirectedGraph.perform graph call).2.Follows (log.perform call).2 := by
  cases call with
  | addVertex memory vertex => exact hfollows.perform_addVertex memory vertex
  | addEdge source target cost => exact hfollows.perform_addEdge hcoherent source target cost
  | removeEdge source target => exact hfollows.perform_removeEdge source target
  | removeVertex vertex => exact hfollows.perform_removeVertex vertex
  | clear => exact ⟨rfl, follows_empty⟩

end Steps

/-! ## Runs -/

section Runs

variable [LawfulHashable V] {graph : ListGraph V E} {log : EdgeLog V E}

theorem Coherent.targets_edges (hcoherent : graph.Coherent) (vertex : V) :
    ∀ edge ∈ graph.edges vertex, graph.hasVertex edge.1 = true := by
  cases hrow : graph.rows[vertex]? with
  | none =>
      rw [edges_eq_nil ((rows_eq_none_iff graph vertex).mp hrow)]
      exact fun edge hedge => absurd hedge List.not_mem_nil
  | some row =>
      rw [edges_of_some hrow]
      exact hcoherent.targets hrow

/-- A removed edge was counted. -/
theorem Coherent.removeEdge_counts (hcoherent : graph.Coherent) (source target : V)
    (hedge : graph.hasEdge source target = true) :
    1 ≤ graph.edgeCount ∧
      (graph.removeEdge source target).2.edgeCount = graph.edgeCount - 1 := by
  rw [ListGraph.hasEdge, edgeCost?] at hedge
  cases hrow : graph.rows[source]? with
  | none =>
      rw [hrow] at hedge
      exact absurd hedge Bool.false_ne_true
  | some row =>
      rw [hrow, Option.bind_some] at hedge
      have hlength := EdgeList.length_without (hcoherent.distinct hrow) hedge
      have hcount := countEdges_eq_degree_add graph source
      rw [← hcoherent.edgeCount_eq, degree_of_some hrow] at hcount
      rw [removeEdge_of_some hrow hedge]
      exact ⟨by omega, rfl⟩

/-- All edges that go with a removed vertex were counted. -/
theorem Coherent.removeVertex_counts (hcoherent : graph.Coherent) (vertex : V)
    (hvertex : graph.hasVertex vertex = true) :
    (graph.losses vertex).sum ≤ graph.edgeCount ∧
      (graph.removeVertex vertex).2.edgeCount =
        (graph.losses vertex).foldl (fun left amount => left - amount) graph.edgeCount := by
  obtain ⟨row, hrow⟩ := Option.isSome_iff_exists.mp (hasVertex_eq_isSome graph vertex ▸ hvertex)
  constructor
  · rw [hcoherent.edgeCount_eq_add_losses vertex]
    exact Nat.le_add_left _ _
  · rw [ListGraph.removeVertex_of_some hrow]

/-- All that can be seen of a graph is as the log says, and each removal takes from the counter
no more than it has. -/
structure Agrees (graph : ListGraph V E) (log : EdgeLog V E) : Prop where
  hasVertex : ∀ vertex, graph.hasVertex vertex = decide (.of vertex ∈ log.vertices)
  vertices : (graph.vertices.map EqClass.of).Perm log.vertices.toList
  edges : ∀ vertex, graph.edges vertex = log.edges vertex
  hasEdge : ∀ source target, graph.hasEdge source target = log.hasEdge source target
  edgeCost? : ∀ source target, graph.edgeCost? source target = log.edgeCost? source target
  degree : ∀ vertex, graph.degree vertex = (log.edges vertex).length
  vertexCount : graph.vertexCount = log.vertices.card
  edgeCount : graph.edgeCount = log.created.length
  targets : ∀ vertex, ∀ edge ∈ graph.edges vertex, graph.hasVertex edge.1 = true
  distinct : ∀ vertex, (graph.edges vertex).Pairwise
    fun first second => ¬ (first.1 == second.1) = true
  /-- An edge that can be removed is counted. -/
  removeEdge_counts : ∀ source target, graph.hasEdge source target = true →
    1 ≤ graph.edgeCount ∧ (graph.removeEdge source target).2.edgeCount = graph.edgeCount - 1
  /-- So are all edges that go with a vertex, which the rows take from the counter in turn. -/
  removeVertex_counts : ∀ vertex, graph.hasVertex vertex = true →
    (graph.losses vertex).sum ≤ graph.edgeCount ∧
      (graph.removeVertex vertex).2.edgeCount =
        (graph.losses vertex).foldl (fun left amount => left - amount) graph.edgeCount

theorem Follows.edgeCount_eq (hfollows : graph.Follows log) (hcoherent : graph.Coherent) :
    graph.edgeCount = log.created.length := by
  have hsources : ∀ edge ∈ log.created,
      ∃ vertex ∈ graph.vertices, (vertex == edge.source) = true := by
    intro edge hedge
    rw [← hcoherent.mem_vertices, hasVertex_iff_mem hfollows.vertices]
    exact hfollows.sources edge hedge
  calc graph.edgeCount
      = (graph.vertices.map graph.degree).sum := hcoherent.edgeCount_eq_sum
    _ = (graph.vertices.map fun vertex =>
          (CreatedEdge.outgoing log.created vertex).length).sum := by
        congr 1
        apply List.map_congr_left
        intro vertex _
        exact congrArg List.length (hfollows.edges vertex)
    _ = log.created.length :=
        CreatedEdge.sum_length_outgoing hcoherent.distinct_vertices hsources

/-- The vertices are listed in some order, each once. -/
theorem Follows.vertices_perm [Literal V] (hfollows : graph.Follows log)
    (hcoherent : graph.Coherent) :
    (graph.vertices.map EqClass.of).Perm log.vertices.toList := by
  have hconsistent := hcoherent.consistent
  have hnodup : (graph.vertices.map EqClass.of).Nodup := hconsistent.nodup_vertices
  rw [List.perm_ext_iff_of_nodup hnodup log.vertices.nodup_toList]
  intro node
  obtain ⟨vertex, rfl⟩ := node.exists_of
  rw [Finset.mem_toList, ← hasVertex_iff_mem hfollows.vertices]
  exact hconsistent.of_mem_vertices_iff vertex

theorem Follows.agrees [Literal V] (hfollows : graph.Follows log) (hcoherent : graph.Coherent) :
    graph.Agrees log := by
  have hconsistent := hcoherent.consistent
  have hlisted := hfollows.vertices_perm hcoherent
  exact {
    hasVertex := hfollows.vertices
    vertices := hlisted
    edges := hfollows.edges
    hasEdge := fun source target => by
      rw [ListGraph.hasEdge, edgeCost?_eq_find?, hfollows.edges, log.hasEdge_eq,
        Option.isSome_map, List.isSome_find?]
    edgeCost? := fun source target => by
      rw [edgeCost?_eq_find?, hfollows.edges, log.edgeCost?_eq]
    degree := fun vertex => congrArg List.length (hfollows.edges vertex)
    vertexCount := by
      have hcount : graph.vertexCount = graph.vertices.length := hconsistent.vertexCount_eq
      rw [hcount, ← List.length_map EqClass.of, hlisted.length_eq, Finset.length_toList]
    edgeCount := hfollows.edgeCount_eq hcoherent
    targets := hcoherent.targets_edges
    distinct := hconsistent.distinct_edges
    removeEdge_counts := hcoherent.removeEdge_counts
    removeVertex_counts := hcoherent.removeVertex_counts }

/-- A new graph answers every run of calls as the log of its edges does, and shows afterwards
what the log says. -/
theorem empty_run_follows_creation [Literal V] (calls : List (GraphCall V E)) :
    (Calls.run DirectedGraph.perform (empty : ListGraph V E) calls).1 =
        (Calls.run EdgeLog.perform EdgeLog.empty calls).1 ∧
      Agrees (Calls.run DirectedGraph.perform (empty : ListGraph V E) calls).2
        (Calls.run EdgeLog.perform EdgeLog.empty calls).2 := by
  have hstep : ∀ (graph : ListGraph V E) (log : EdgeLog V E) (call : GraphCall V E),
      graph.Coherent ∧ graph.Follows log →
        (DirectedGraph.perform graph call).1 = (log.perform call).1 ∧
          (DirectedGraph.perform graph call).2.Coherent ∧
            (DirectedGraph.perform graph call).2.Follows (log.perform call).2 := by
    intro graph log call hrelated
    obtain ⟨hanswer, hnext⟩ := hrelated.2.perform hrelated.1 call
    exact ⟨hanswer, hrelated.1.perform call, hnext⟩
  obtain ⟨hanswers, hcoherent, hfollows⟩ :=
    Calls.run_agrees_of_related hstep calls ⟨coherent_empty, follows_empty⟩
  exact ⟨hanswers, hfollows.agrees hcoherent⟩

/-- Calls that overwrite an edge and then remove a vertex with a loop in the middle of the
log. -/
def rewritingCalls : List (GraphCall Nat Int64) :=
  [.addVertex .unlimited 1, .addVertex .unlimited 2, .addVertex .unlimited 3,
    .addEdge 1 3 13, .addEdge 2 2 22, .addEdge 1 2 12, .addEdge 3 2 32, .addEdge 1 1 11,
    .addEdge 1 3 33, .removeVertex 2, .addEdge 3 1 31]

theorem empty_run_follows_creation_rewritingCalls :
    ∃ graph : ListGraph Nat Int64,
      graph = (Calls.run DirectedGraph.perform (empty : ListGraph Nat Int64) rewritingCalls).2 ∧
        graph.edges 1 = [(3, 33), (1, 11)] ∧ graph.edges 3 = [(1, 31)] ∧
          graph.edgeCount = 3 := by
  obtain ⟨-, hagrees⟩ := @empty_run_follows_creation Nat Int64 _ _ _ _ _ rewritingCalls
  exact ⟨_, rfl, hagrees.edges 1, hagrees.edges 3, hagrees.edgeCount⟩

end Runs

end ListGraph

end Collections
