import Mathlib
import Collections.Proofs.Graph.EdgeLists
import Collections.Proofs.Graph.Growth
import Collections.Proofs.Graph.MatrixCalls
import Collections.Proofs.Graph.MatrixCosts

/-!
# Calls that fail

Only an addition can fail.  An edge needs both its ends, a list graph refuses a vertex that it
has, and a matrix graph refuses a new vertex if its tables are full and cannot double.  A call
that fails leaves the graph as it was and logs nothing, so a run does not change if the calls
that fail in it are left out.
-/

namespace Collections

universe u v w

/-- Only an addition can fail. -/
def GraphAnswer.fails : GraphAnswer → Bool
  | .added (.error _) | .connected (.error _) => true
  | _ => false

namespace DirectedGraph

variable {γ : Type u} {V : Type v} {E : Type w} [DirectedGraph γ V E]

/-- A call with what it logs; only an added vertex logs anything. -/
def take (graph : γ) : GraphCall V E → Step γ GraphAnswer
  | .addVertex memory vertex => (addVertex memory graph vertex).map .added
  | call => .ofPair (perform graph call)

/-- The calls of a run that do not fail. -/
def succeeding (graph : γ) : List (GraphCall V E) → List (GraphCall V E)
  | [] => []
  | call :: calls =>
    let step := take graph call
    if step.result.fails then succeeding step.state calls
      else call :: succeeding step.state calls

/-- The additions of a representation leave the graph alone when they fail, and log nothing.
An edge needs both its ends, and the source is looked for first. -/
structure RefusesQuietly (γ : Type u) [DirectedGraph γ V E] [Literal V] : Prop where
  addVertex : ∀ memory (graph : γ) vertex fault,
    (addVertex memory graph vertex).result = .error fault →
      addVertex memory graph vertex = .quiet graph (.error fault)
  source_absent : ∀ (graph : γ) source target cost, hasVertex graph source = false →
    addEdge graph source target cost = (.error (.missing .source source), graph)
  target_absent : ∀ (graph : γ) source target cost, hasVertex graph source = true →
    hasVertex graph target = false →
      addEdge graph source target cost = (.error (.missing .target target), graph)
  ends_present : ∀ (graph : γ) source target cost, hasVertex graph source = true →
    hasVertex graph target = true → (addEdge graph source target cost).1 = .ok ()

variable [Literal V] {graph : γ} {call : GraphCall V E} {source target : V} {cost : E}
variable {fault : Fault}

theorem RefusesQuietly.addEdge_eq_error_iff (hrefuses : RefusesQuietly γ) :
    (addEdge graph source target cost).1 = .error fault ↔
      (hasVertex graph source = false ∧ fault = .missing .source source) ∨
        (hasVertex graph source = true ∧ hasVertex graph target = false ∧
          fault = .missing .target target) := by
  cases hsource : hasVertex graph source with
  | false =>
      rw [hrefuses.source_absent graph source target cost hsource]
      simp [eq_comm (a := fault)]
  | true =>
      cases htarget : hasVertex graph target with
      | false =>
          rw [hrefuses.target_absent graph source target cost hsource htarget]
          simp [eq_comm (a := fault)]
      | true =>
          rw [hrefuses.ends_present graph source target cost hsource htarget]
          simp

theorem RefusesQuietly.addEdge_of_error (hrefuses : RefusesQuietly γ)
    (hfails : (addEdge graph source target cost).1 = .error fault) :
    addEdge graph source target cost = (.error fault, graph) := by
  rcases hrefuses.addEdge_eq_error_iff.mp hfails with ⟨hsource, rfl⟩ | ⟨hsource, htarget, rfl⟩
  · exact hrefuses.source_absent graph source target cost hsource
  · exact hrefuses.target_absent graph source target cost hsource htarget

theorem RefusesQuietly.take (hrefuses : RefusesQuietly γ)
    (hfails : (take graph call).result.fails = true) :
    take graph call = .quiet graph (take graph call).result := by
  cases call with
  | addVertex memory vertex =>
      cases hresult : (DirectedGraph.addVertex memory graph vertex).result with
      | ok new =>
          have hanswer : (DirectedGraph.take graph (.addVertex memory vertex)).result =
              .added (.ok new) := congrArg GraphAnswer.added hresult
          rw [hanswer] at hfails
          exact absurd hfails Bool.false_ne_true
      | error fault =>
          rw [DirectedGraph.take, hrefuses.addVertex memory graph vertex fault hresult]
          rfl
  | addEdge source target cost =>
      cases hresult : (DirectedGraph.addEdge graph source target cost).1 with
      | ok done =>
          have hanswer : (DirectedGraph.take graph (.addEdge source target cost)).result =
              .connected (.ok done) := congrArg GraphAnswer.connected hresult
          rw [hanswer] at hfails
          exact absurd hfails Bool.false_ne_true
      | error fault =>
          rw [DirectedGraph.take, perform, hrefuses.addEdge_of_error hresult]
          · rfl
          · exact nofun
  | removeEdge source target => exact absurd hfails Bool.false_ne_true
  | removeVertex vertex => exact absurd hfails Bool.false_ne_true
  | clear => exact absurd hfails Bool.false_ne_true

omit [Literal V] in
theorem forEach_cons (graph : γ) (call : GraphCall V E) (calls : List (GraphCall V E)) :
    Step.forEach take graph (call :: calls) =
      ⟨(Step.forEach take (take graph call).state calls).state,
        (take graph call).result :: (Step.forEach take (take graph call).state calls).result,
        (take graph call).log ++ (Step.forEach take (take graph call).state calls).log⟩ :=
  rfl

omit [Literal V] in
/-- A failed call ahead of others adds its answer and nothing else. -/
theorem forEach_cons_of_quiet (hquiet : take graph call = .quiet graph (take graph call).result)
    (calls : List (GraphCall V E)) :
    Step.forEach take graph (call :: calls) =
      (Step.forEach take graph calls).map ((take graph call).result :: ·) := by
  rw [forEach_cons, hquiet]
  rfl

/-- A run does the same without the calls that fail in it. -/
theorem RefusesQuietly.forEach_succeeding (hrefuses : RefusesQuietly γ)
    (calls : List (GraphCall V E)) :
    ∀ graph : γ, Step.forEach DirectedGraph.take graph (succeeding graph calls) =
      (Step.forEach DirectedGraph.take graph calls).map
        (List.filter fun answer : GraphAnswer => !answer.fails) := by
  induction calls with
  | nil => exact fun graph => rfl
  | cons call calls ih =>
      intro graph
      rw [succeeding]
      -- A failed call leaves the state, so the other calls fail or not as they do without it.
      by_cases hfails : (DirectedGraph.take graph call).result.fails = true
      · have hquiet := hrefuses.take hfails
        have hsame : (DirectedGraph.take graph call).state = graph := by rw [hquiet, Step.quiet]
        rw [if_pos hfails, hsame, ih, forEach_cons_of_quiet hquiet]
        simp [Step.map, hfails]
      · rw [if_neg hfails, forEach_cons, ih, forEach_cons]
        simp [Step.map, hfails]

/-- When an edge is refused, and what a failed call leaves behind: nothing of the graph changes,
nothing is logged, and a run goes on as if the calls that fail in it were not made. -/
structure FailsCleanly (graph : γ) : Prop where
  addEdge_iff : ∀ source target cost fault,
    (addEdge graph source target cost).1 = .error fault ↔
      (hasVertex graph source = false ∧ fault = .missing .source source) ∨
        (hasVertex graph source = true ∧ hasVertex graph target = false ∧
          fault = .missing .target target)
  unchanged : ∀ call, (take graph call).result.fails = true →
    (take graph call).state = graph ∧ (take graph call).log = []
  skipped : ∀ call calls, (take graph call).result.fails = true →
    Step.forEach take graph (call :: calls) =
      (Step.forEach take graph calls).map ((take graph call).result :: ·)
  succeeding : ∀ calls, Step.forEach take graph (succeeding graph calls) =
    (Step.forEach take graph calls).map (List.filter fun answer : GraphAnswer => !answer.fails)

theorem RefusesQuietly.failsCleanly (hrefuses : RefusesQuietly γ) (graph : γ) :
    FailsCleanly graph where
  addEdge_iff source target cost fault := hrefuses.addEdge_eq_error_iff
  unchanged call hfails := by
    rw [hrefuses.take hfails]
    exact ⟨rfl, rfl⟩
  skipped call calls hfails := forEach_cons_of_quiet (hrefuses.take hfails) calls
  succeeding calls := hrefuses.forEach_succeeding calls graph

end DirectedGraph

namespace MatrixGraph

variable {V : Type u} {E : Type v} [BEq V] [Hashable V] [Inhabited E] [ByteSize E]
variable {graph : MatrixGraph V E} {fault : Fault}

/-- Only a new vertex makes a graph fail that is full and cannot grow. -/
theorem addVertex_eq_error_iff {memory : Memory} {vertex : V} :
    (graph.addVertex memory vertex).result = .error fault ↔
      graph.hasVertex vertex = false ∧ graph.vertexCount = graph.capacity.toNat ∧
        EdgeTable.Refusal E memory (graph.capacity.toNat * 2) fault := by
  rw [addVertex, capacity, ← EdgeTable.grow_eq_error_iff, ← Bool.not_eq_true]
  split
  next hpresent => exact iff_of_false (by simp [Step.quiet]) fun hboth => hboth.1 hpresent
  next habsent =>
    rw [and_iff_right habsent]
    split
    next hfull =>
      rw [and_iff_right hfull]
      dsimp only
      cases (graph.table.grow memory graph.vertexCount).result with
      | ok grown => simp
      | error other => simp
    next hroom => exact iff_of_false (by simp [Step.quiet]) fun hboth => hroom hboth.1

variable [Literal V] [EquivBEq V] [LawfulHashable V]

theorem refusesQuietly : DirectedGraph.RefusesQuietly (MatrixGraph V E) where
  addVertex memory graph vertex fault hfails := by
    change graph.addVertex memory vertex = _
    rcases addVertex_cases memory graph vertex with
      ⟨-, hstep⟩ | ⟨-, -, hstep⟩ | ⟨-, -, larger, -, -, hstep⟩ | ⟨-, -, -, other, hstep⟩
    all_goals
      rw [show DirectedGraph.addVertex memory graph vertex = _ from hstep] at hfails
      rw [hstep]
    · exact absurd hfails (by simp [Step.quiet])
    · exact absurd hfails (by simp [Step.quiet])
    · exact absurd hfails (by simp)
    · rw [Except.error.inj hfails]
  source_absent graph source target cost hsource :=
    addEdge_of_source_none ((indexOf?_eq_none_iff graph source).mpr hsource) target cost
  target_absent graph source target cost hsource htarget := by
    obtain ⟨row, hrow⟩ := (exists_indexOf?_iff graph source).mpr hsource
    exact addEdge_of_target_none hrow ((indexOf?_eq_none_iff graph target).mpr htarget) cost
  ends_present graph source target cost hsource htarget := by
    obtain ⟨row, hrow⟩ := (exists_indexOf?_iff graph source).mpr hsource
    obtain ⟨column, hcolumn⟩ := (exists_indexOf?_iff graph target).mpr htarget
    exact congrArg Prod.fst (addEdge_of_some hrow hcolumn cost)

end MatrixGraph

namespace ListGraph

variable {V : Type u} {E : Type v} [BEq V] [Hashable V] [Literal V]
variable {graph : ListGraph V E} {fault : Fault}

theorem addVertex_eq_error_iff {vertex : V} : (graph.addVertex vertex).1 = .error fault ↔
    graph.hasVertex vertex = true ∧ fault = .duplicate vertex := by
  rw [addVertex]
  split
  next hpresent => simp [hpresent, eq_comm]
  next habsent => simp [habsent]

variable [EquivBEq V] [LawfulHashable V]

theorem refusesQuietly : DirectedGraph.RefusesQuietly (ListGraph V E) where
  addVertex memory graph vertex fault hfails := by
    change (Step.ofPair (graph.addVertex vertex)).map _ = _
    change ((Step.ofPair (graph.addVertex vertex)).map _).result = _ at hfails
    rw [ListGraph.addVertex] at hfails ⊢
    split at hfails
    next hpresent =>
      rw [if_pos hpresent, ← Except.error.inj hfails]
      rfl
    next habsent => exact absurd hfails (by simp [Step.ofPair, Step.quiet, Step.map, Except.map])
  source_absent graph source target cost hsource :=
    addEdge_of_source_none ((rows_eq_none_iff graph source).mpr hsource) target cost
  target_absent graph source target cost hsource htarget := by
    obtain ⟨row, hrow⟩ := (exists_rows_iff graph source).mpr hsource
    exact addEdge_of_target_none hrow htarget cost
  ends_present graph source target cost hsource htarget := by
    obtain ⟨row, hrow⟩ := (exists_rows_iff graph source).mpr hsource
    exact congrArg Prod.fst (addEdge_of_some hrow htarget cost)

end ListGraph

namespace DirectedGraph

variable {V : Type u} {E : Type v} [BEq V] [EquivBEq V] [Hashable V] [LawfulHashable V]
variable [Literal V] [Inhabited E] [ByteSize E]

/-- When the calls of a graph fail, whatever requests for memory are refused, and that a call
that fails leaves nothing behind. -/
theorem failed_calls :
    (∀ graph : MatrixGraph V E, FailsCleanly graph ∧ ∀ memory vertex,
      (∃ fault, (graph.addVertex memory vertex).result = .error fault) ↔
        graph.hasVertex vertex = false ∧ graph.vertexCount = graph.capacity.toNat ∧
          (¬ EdgeTable.Addressable E (graph.capacity.toNat * 2) ∨
            memory.Refuses .presence
              (EdgeTable.tableBytes E (graph.capacity.toNat * 2) .presence) ∨
            memory.Refuses .costs (EdgeTable.tableBytes E (graph.capacity.toNat * 2) .costs))) ∧
      ∀ graph : ListGraph V E, FailsCleanly graph ∧ ∀ vertex fault,
        (graph.addVertex vertex).1 = .error fault ↔
          graph.hasVertex vertex = true ∧ fault = .duplicate vertex := by
  constructor
  · intro graph
    refine ⟨MatrixGraph.refusesQuietly.failsCleanly graph, fun memory vertex => ?_⟩
    simp only [MatrixGraph.addVertex_eq_error_iff]
    rw [exists_and_left, exists_and_left, EdgeTable.exists_refusal_iff]
  · intro graph
    refine ⟨ListGraph.refusesQuietly.failsCleanly graph, fun vertex fault => ?_⟩
    exact ListGraph.addVertex_eq_error_iff

/-- A graph with one vertex and no room for another. -/
def fullGraph : MatrixGraph Nat Int64 :=
  (MatrixGraph.ofTable (.blank 1)).append 7

/-- The presences of twice the size fit into the memory and the costs do not. -/
theorem failed_calls_fullGraph :
    (∃ fault, (fullGraph.addVertex (.below 5) 8).result = .error fault) ∧
      (take fullGraph (.addVertex (.below 5) 8)).state = fullGraph ∧
        ∀ calls, Step.forEach take fullGraph (.addVertex (.below 5) 8 :: calls) =
          (Step.forEach take fullGraph calls).map
            ((take fullGraph (.addVertex (.below 5) 8)).result :: ·) := by
  obtain ⟨hclean, hfails⟩ := (failed_calls (V := Nat) (E := Int64)).1 fullGraph
  have hcosts : Memory.Refuses (.below 5) .costs
      (EdgeTable.tableBytes Int64 (fullGraph.capacity.toNat * 2) .costs) :=
    ⟨by decide, by decide⟩
  have hanswer : (take fullGraph (.addVertex (.below 5) 8)).result.fails = true := by cbv
  exact ⟨(hfails (.below 5) 8).mpr ⟨by cbv, by cbv, Or.inr (Or.inr hcosts)⟩,
    (hclean.unchanged _ hanswer).1, fun calls => hclean.skipped _ calls hanswer⟩

end DirectedGraph

end Collections
