import Mathlib
import Collections.Proofs.Graph.MatrixAgreement

/-!
# Runs of a matrix graph

Each call leads from a graph that depicts a model to a graph that depicts the changed
model, and answers what the model answers.  So a whole run does, however many times
the table is doubled and vertices are moved to other indices.
-/

namespace Collections

universe u v

namespace MatrixGraph

variable {V : Type u} {E : Type v} [BEq V] [Hashable V] [EquivBEq V]
variable {graph : MatrixGraph V E} {model : CostGraph (EqClass V) E}

/-! ## Changes of the model -/

section Cells

variable [Inhabited E]

theorem Depicts.enlarge (hdepicts : graph.Depicts model) (hcoherent : graph.Coherent)
    {larger : UInt64} (hlarger : graph.vertexCount ≤ larger.toNat) :
    ({ graph with table := graph.table.enlarge larger graph.vertexCount } :
      MatrixGraph V E).Depicts model where
  vertices := hdepicts.vertices
  costs source target := by
    rw [hcoherent.edgeCost?_enlarge hlarger, hdepicts.costs]

theorem Depicts.putEdge (hdepicts : graph.Depicts model) (hcoherent : graph.Coherent)
    {source target : V} {row column : Nat} (hrow : graph.indexOf? source = some row)
    (hcolumn : graph.indexOf? target = some column)
    (hsource : .of source ∈ model.vertices) (htarget : .of target ∈ model.vertices)
    (cost : E) :
    (graph.putEdge row column cost).Depicts (model.setCost hsource htarget cost) where
  vertices := hdepicts.vertices
  costs first second := by
    rw [hcoherent.edgeCost?_putEdge hrow hcolumn, hdepicts.costs, CostGraph.setCost]
    simp only [EqClass.of_eq_of_iff, BEq.comm]

theorem Depicts.dropEdge (hdepicts : graph.Depicts model) (hcoherent : graph.Coherent)
    {source target : V} {row column : Nat} (hrow : graph.indexOf? source = some row)
    (hcolumn : graph.indexOf? target = some column) :
    (graph.dropEdge row column).Depicts (model.deleteEdge (.of source) (.of target)) where
  vertices vertex := by
    rw [hasVertex, index_dropEdge]
    exact hdepicts.vertices vertex
  costs first second := by
    rw [hcoherent.edgeCost?_dropEdge hrow hcolumn, hdepicts.costs, CostGraph.deleteEdge]
    simp only [EqClass.of_eq_of_iff, BEq.comm]

end Cells

variable [LawfulHashable V] [Inhabited E]

theorem depicts_empty {capacity : UInt64} :
    (ofTable (.blank capacity) : MatrixGraph V E).Depicts .empty where
  vertices vertex := by
    rw [CostGraph.empty, hasVertex, ofTable]
    simp
  costs source target := by
    rw [edgeCost?_eq_bind, indexOf?, ofTable]
    simp [CostGraph.empty]

theorem Depicts.append (hdepicts : graph.Depicts model) (hcoherent : graph.Coherent)
    (hroom : graph.vertexCount < graph.table.side) {added : V}
    (habsent : .of added ∉ model.vertices) :
    (graph.append added).Depicts (model.insertVertex (.of added)) where
  vertices vertex := by
    rw [hasVertex_append, hdepicts.vertices, CostGraph.insertVertex, Bool.eq_iff_iff]
    simp only [Bool.or_eq_true, decide_eq_true_eq, Finset.mem_insert, EqClass.of_eq_of_iff]
    rw [BEq.comm]
  costs source target := by
    rw [hcoherent.edgeCost?_append hroom]
    split
    next hnew =>
      rcases hnew with hsource | htarget
      · rw [← EqClass.of_eq_of_iff.mpr hsource]
        exact (model.cost?_eq_none_of_source habsent _).symm
      · rw [← EqClass.of_eq_of_iff.mpr htarget]
        exact (model.cost?_eq_none_of_target habsent _).symm
    next => exact hdepicts.costs source target

theorem Depicts.takenOver (hdepicts : graph.Depicts model) (hcoherent : graph.Coherent)
    {after : MatrixGraph V E} {removed : V} {freed last : Nat}
    (htaken : TakenOver graph after removed freed last)
    (hremoved : graph.indexOf? removed = some freed) (hlast : last = graph.vertexCount - 1) :
    after.Depicts (model.deleteVertex (.of removed)) where
  vertices vertex := by
    rw [hasVertex_eq_isSome, htaken.indexOf?_eq, CostGraph.deleteVertex, Bool.eq_iff_iff,
      decide_eq_true_eq, Finset.mem_erase]
    have hpresent := hdepicts.vertices vertex
    rw [hasVertex_eq_isSome] at hpresent
    rw [ne_eq, EqClass.of_eq_of_iff, BEq.comm]
    split
    next hgone => simp [hgone]
    next hkept => rw [Option.isSome_map, hpresent, decide_eq_true_eq, and_iff_right hkept]
  costs source target := by
    rw [htaken.edgeCost?_eq hcoherent hremoved hlast, hdepicts.costs, CostGraph.deleteVertex]
    simp only [EqClass.of_eq_of_iff, BEq.comm]

/-! ## Calls -/

theorem Depicts.removeEdge (hdepicts : graph.Depicts model) (hcoherent : graph.Coherent)
    (source target : V) :
    (graph.removeEdge source target).1 = (model.cost? (.of source) (.of target)).isSome ∧
      (graph.removeEdge source target).2.Depicts
        (model.deleteEdge (.of source) (.of target)) := by
  by_cases hmissing : graph.indexOf? source = none ∨ graph.indexOf? target = none
  · have hcost : model.cost? (.of source) (.of target) = none := by
      rcases hmissing with hsource | htarget
      · exact model.cost?_eq_none_of_source
          ((hdepicts.indexOf?_eq_none_iff source).mp hsource) _
      · exact model.cost?_eq_none_of_target
          ((hdepicts.indexOf?_eq_none_iff target).mp htarget) _
    rw [removeEdge_of_none hmissing, CostGraph.deleteEdge_of_none hcost, hcost]
    exact ⟨rfl, hdepicts⟩
  · rw [not_or, ← ne_eq, ← ne_eq, Option.ne_none_iff_exists', Option.ne_none_iff_exists']
      at hmissing
    obtain ⟨⟨row, hrow⟩, ⟨column, hcolumn⟩⟩ := hmissing
    rw [removeEdge_of_some hrow hcolumn]
    refine ⟨?_, hdepicts.dropEdge hcoherent hrow hcolumn⟩
    rw [← hdepicts.costs, edgeCost?_eq_bind, hrow, hcolumn]
    exact EdgeTable.present_eq_isSome hcoherent.table row column

theorem Depicts.removeVertex (hdepicts : graph.Depicts model) (hcoherent : graph.Coherent)
    (vertex : V) :
    (graph.removeVertex vertex).1 = decide (.of vertex ∈ model.vertices) ∧
      (graph.removeVertex vertex).2.Depicts (model.deleteVertex (.of vertex)) := by
  cases hremoved : graph.indexOf? vertex with
  | none =>
      have habsent := (hdepicts.indexOf?_eq_none_iff vertex).mp hremoved
      rw [removeVertex_of_none hremoved, CostGraph.deleteVertex_of_notMem habsent]
      exact ⟨(decide_eq_false habsent).symm, hdepicts⟩
  | some freed =>
      have htaken := takenOver_removeVertex hcoherent hremoved
      have hpresent := hdepicts.mem_of_some hremoved
      refine ⟨?_, hdepicts.takenOver hcoherent htaken hremoved rfl⟩
      rw [removeVertex_of_some hremoved, decide_eq_true hpresent]

variable [ByteSize E]

/-- A call that needs a larger table is granted the memory for it. -/
def Granted (graph : MatrixGraph V E) : GraphCall V E → Prop
  | .addVertex memory vertex =>
    graph.hasVertex vertex = false → graph.vertexCount = graph.capacity.toNat →
      graph.table.CanGrow memory
  | _ => True

theorem Depicts.addVertex (hdepicts : graph.Depicts model) (hcoherent : graph.Coherent)
    {memory : Memory} {vertex : V}
    (hgranted : graph.hasVertex vertex = false → graph.vertexCount = graph.capacity.toNat →
      graph.table.CanGrow memory) :
    (graph.addVertex memory vertex).result = .ok (decide (.of vertex ∉ model.vertices)) ∧
      (graph.addVertex memory vertex).state.Depicts (model.insertVertex (.of vertex)) := by
  have hpresent := hdepicts.vertices vertex
  rcases addVertex_cases memory graph vertex with
    ⟨hmem, hstep⟩ | ⟨habsent, hroom, hstep⟩ |
      ⟨habsent, hfull, larger, htwice, -, hstep⟩ | ⟨habsent, hfull, hrefused, -⟩
  · rw [hmem, eq_comm, decide_eq_true_eq] at hpresent
    rw [hstep, CostGraph.insertVertex_of_mem hpresent]
    exact ⟨by simp [Step.quiet, hpresent], hdepicts⟩
  · rw [habsent, eq_comm, decide_eq_false_iff_not] at hpresent
    rw [hstep]
    refine ⟨by simp [Step.quiet, hpresent], ?_⟩
    apply hdepicts.append hcoherent _ hpresent
    exact Nat.lt_of_le_of_ne hcoherent.vertexCount_le hroom
  · rw [habsent, eq_comm, decide_eq_false_iff_not] at hpresent
    rw [hstep]
    refine ⟨by simp [hpresent], ?_⟩
    obtain ⟨hlarger, hroom⟩ := hcoherent.lt_of_twice htwice
    exact (hdepicts.enlarge hcoherent (Nat.le_of_lt hroom)).append
      (hcoherent.enlarge hlarger) hroom hpresent
  · exact absurd (hgranted habsent hfull) hrefused

variable [Literal V]

/-- A call answers what the model answers and changes both alike. -/
theorem Depicts.perform (hdepicts : graph.Depicts model) (hcoherent : graph.Coherent)
    {call : GraphCall V E} (hgranted : graph.Granted call) :
    (DirectedGraph.perform graph call).1 = (model.perform call).1 ∧
      (DirectedGraph.perform graph call).2.Depicts (model.perform call).2 := by
  cases call with
  | addVertex memory vertex =>
      obtain ⟨hresult, hstate⟩ := hdepicts.addVertex hcoherent hgranted
      exact ⟨congrArg GraphAnswer.added hresult, hstate⟩
  | addEdge source target cost =>
      change GraphAnswer.connected (graph.addEdge source target cost).1 = _ ∧
        (graph.addEdge source target cost).2.Depicts _
      rw [CostGraph.perform]
      cases hrow : graph.indexOf? source with
      | none =>
          rw [addEdge_of_source_none hrow,
            dif_neg ((hdepicts.indexOf?_eq_none_iff source).mp hrow)]
          exact ⟨rfl, hdepicts⟩
      | some row =>
          rw [dif_pos (hdepicts.mem_of_some hrow)]
          cases hcolumn : graph.indexOf? target with
          | none =>
              rw [addEdge_of_target_none hrow hcolumn,
                dif_neg ((hdepicts.indexOf?_eq_none_iff target).mp hcolumn)]
              exact ⟨rfl, hdepicts⟩
          | some column =>
              rw [addEdge_of_some hrow hcolumn, dif_pos (hdepicts.mem_of_some hcolumn)]
              exact ⟨rfl, hdepicts.putEdge hcoherent hrow hcolumn (hdepicts.mem_of_some hrow)
                (hdepicts.mem_of_some hcolumn) cost⟩
  | removeEdge source target =>
      obtain ⟨hresult, hstate⟩ := hdepicts.removeEdge hcoherent source target
      exact ⟨congrArg GraphAnswer.removed hresult, hstate⟩
  | removeVertex vertex =>
      obtain ⟨hresult, hstate⟩ := hdepicts.removeVertex hcoherent vertex
      exact ⟨congrArg GraphAnswer.removed hresult, hstate⟩
  | clear => exact ⟨rfl, depicts_empty⟩

/-! ## Runs -/

omit [EquivBEq V] [LawfulHashable V] [Literal V] in
/-- A graph of a positive capacity can be made if the memory for it is granted. -/
theorem withCapacity_of_reserve {memory : Memory} {capacity : UInt64}
    (hcapacity : 0 < capacity) (hreserve : EdgeTable.reserve E memory capacity = .ok ()) :
    withCapacity memory capacity = .ok (ofTable (.blank capacity) : MatrixGraph V E) := by
  have hcells : (MatrixSettings.cells? capacity).isNone = false := by
    cases hcells : MatrixSettings.cells? capacity with
    | some count => rfl
    | none => simp [EdgeTable.reserve, EdgeTable.cells, hcells, bind, Except.bind] at hreserve
  have hpositive : capacity ≠ 0 := by
    rintro rfl
    exact absurd hcapacity (by decide)
  have hvalid : MatrixSettings.validate ⟨capacity⟩ = .ok () := by
    rw [MatrixSettings.validate, if_neg hpositive, hcells]
    rfl
  rw [withCapacity_of_valid hvalid, hreserve]
  rfl

/-- A new graph answers every run of calls as the graph with costs does that it stands
for, and agrees with it afterwards. -/
theorem withCapacity_run_agrees {memory : Memory} {capacity : UInt64}
    (hcapacity : 0 < capacity) (hreserve : EdgeTable.reserve E memory capacity = .ok ()) :
    ∃ start : MatrixGraph V E, withCapacity memory capacity = .ok start ∧
      ∀ calls : List (GraphCall V E),
        Calls.Throughout DirectedGraph.perform Granted start calls →
          (Calls.run DirectedGraph.perform start calls).1 =
              (Calls.run CostGraph.perform CostGraph.empty calls).1 ∧
            (Calls.run DirectedGraph.perform start calls).2.Agrees
              (Calls.run CostGraph.perform CostGraph.empty calls).2 := by
  refine ⟨_, withCapacity_of_reserve hcapacity hreserve, ?_⟩
  intro calls hgranted
  have hstep : ∀ (state : MatrixGraph V E) (model : CostGraph (EqClass V) E)
      (call : GraphCall V E), state.Granted call → state.Coherent ∧ state.Depicts model →
        (DirectedGraph.perform state call).1 = (model.perform call).1 ∧
          (DirectedGraph.perform state call).2.Coherent ∧
            (DirectedGraph.perform state call).2.Depicts (model.perform call).2 := by
    intro state model call hcall hrelated
    obtain ⟨hanswer, hdepicts⟩ := hrelated.2.perform hrelated.1 hcall
    exact ⟨hanswer, hrelated.1.perform call, hdepicts⟩
  have hstart : (ofTable (.blank capacity) : MatrixGraph V E).Coherent := by
    apply coherent_ofTable
    exact UInt64.lt_iff_toNat_lt.mp hcapacity
  obtain ⟨hanswers, hcoherent, hdepicts⟩ :=
    Calls.run_agrees hstep calls _ _ ⟨hstart, depicts_empty⟩ hgranted
  exact ⟨hanswers, hdepicts.agrees hcoherent⟩

theorem withCapacity_run_agrees_relocatingCalls :
    0 < (1 : UInt64) ∧ EdgeTable.reserve Int64 .unlimited 1 = .ok () ∧
      ∃ start : MatrixGraph Nat Int64, withCapacity .unlimited 1 = .ok start ∧
        Calls.Throughout DirectedGraph.perform Granted start relocatingCalls ∧
        (Calls.run DirectedGraph.perform start relocatingCalls).1 =
            (Calls.run CostGraph.perform CostGraph.empty relocatingCalls).1 ∧
          (Calls.run DirectedGraph.perform start relocatingCalls).2.Agrees
            (Calls.run CostGraph.perform CostGraph.empty relocatingCalls).2 := by
  have hcapacity : 0 < (1 : UInt64) := by decide
  have hreserve : EdgeTable.reserve Int64 .unlimited 1 = .ok () := by rfl
  obtain ⟨start, hstart, hruns⟩ := withCapacity_run_agrees (V := Nat) hcapacity hreserve
  obtain rfl : ofTable (.blank 1) = start :=
    Except.ok.inj ((withCapacity_of_reserve hcapacity hreserve).symm.trans hstart)
  have hgranted : Calls.Throughout DirectedGraph.perform Granted
      (ofTable (.blank 1) : MatrixGraph Nat Int64) relocatingCalls :=
    ⟨fun _ _ => ⟨2, by cbv, by rfl⟩, fun _ _ => ⟨2, by cbv, by rfl⟩,
      fun _ _ => ⟨4, by cbv, by rfl⟩, trivial, trivial, trivial, trivial,
      fun _ _ => ⟨8, by cbv, by rfl⟩, trivial⟩
  exact ⟨hcapacity, hreserve, _, hstart, hgranted, hruns relocatingCalls hgranted⟩

end MatrixGraph

end Collections
