import Mathlib
import Collections.Proofs.Doubling
import Collections.Proofs.Graph.MatrixRuns
import Collections.Proofs.Graph.MatrixSizes

/-!
# Growth of matrix graphs

The capacity of a graph is told by the first one and by the greatest number of vertices that the
graph ever had, whatever was removed, added twice or refused on the way, and the log tells of
every doubling in order.
-/

namespace Collections

universe u v w

namespace DirectedGraph

variable {γ : Type u} {V : Type v} {E : Type w} [DirectedGraph γ V E]

/-- A call with what it logs. -/
def step (graph : γ) : GraphCall V E → Step γ GraphAnswer
  | .addVertex memory vertex => (addVertex memory graph vertex).map .added
  | call => .ofPair (perform graph call)

theorem perform_eq_step (graph : γ) (call : GraphCall V E) :
    perform graph call = ((step graph call).result, (step graph call).state) := by
  cases call <;> rfl

end DirectedGraph

namespace MatrixGraph

variable {V : Type u} {E : Type v} [BEq V] [Hashable V] [Inhabited E] [ByteSize E] [Literal V]
variable {graph : MatrixGraph V E}

/-- The line of a table that is doubled tells both numbers of vertices. -/
def growthLine (side : Nat) : LogEvent :=
  .matrixGrown (.ofNat side) (.ofNat (side * 2))

/-- A call is not for a vertex that the graph does not have yet. -/
def AddsNothing (graph : MatrixGraph V E) (call : GraphCall V E) : Prop :=
  ∀ memory vertex, call = .addVertex memory vertex → graph.hasVertex vertex = true

section Calls

variable [EquivBEq V] [LawfulHashable V]

/-- Without a new vertex, the capacity stays, also that of a full graph. -/
theorem Coherent.step_of_addsNothing (hcoherent : graph.Coherent) {call : GraphCall V E}
    (hcall : graph.AddsNothing call) :
    (DirectedGraph.perform graph call).2.capacity = graph.capacity ∧
      (DirectedGraph.step graph call).log = [] := by
  cases call with
  | addVertex memory vertex =>
      have hpresent : graph.addVertex memory vertex = .quiet graph (.ok false) :=
        if_pos (hcall memory vertex rfl)
      change (graph.addVertex memory vertex).state.capacity = _ ∧
        (graph.addVertex memory vertex).log = _
      rw [hpresent]
      exact ⟨rfl, rfl⟩
  | addEdge source target cost => exact ⟨hcoherent.capacity_perform_of_ne (by simp), rfl⟩
  | removeEdge source target => exact ⟨hcoherent.capacity_perform_of_ne (by simp), rfl⟩
  | removeVertex vertex => exact ⟨hcoherent.capacity_perform_of_ne (by simp), rfl⟩
  | clear => exact ⟨hcoherent.capacity_perform_of_ne (by simp), rfl⟩

omit [Literal V] in
/-- The table of a graph is doubled exactly when a new vertex finds it full. -/
theorem Coherent.addVertex_doubled (hcoherent : graph.Coherent) (memory : Memory) (vertex : V) :
    ∃ count, Doubled growthLine graph.capacity.toNat
      (graph.addVertex memory vertex).state.vertexCount count
      (graph.addVertex memory vertex).state.capacity.toNat
      (graph.addVertex memory vertex).log := by
  have hkept : graph.vertexCount ≤ graph.capacity.toNat := hcoherent.vertexCount_le
  have hadded : (graph.addVertex memory vertex).state.vertexCount ≤
      (graph.addVertex memory vertex).state.capacity.toNat :=
    (hcoherent.addVertex memory vertex).vertexCount_le
  rcases addVertex_cases memory graph vertex with
    ⟨-, hstep⟩ | ⟨-, -, hstep⟩ | ⟨-, hfull, larger, htwice, -, hstep⟩ | ⟨-, -, -, fault, hstep⟩ <;>
    rw [hstep] at hadded ⊢
  · exact ⟨0, Doubled.unchanged hkept⟩
  · exact ⟨0, Doubled.unchanged hadded⟩
  · have hlarger : larger.toNat = graph.capacity.toNat * 2 := EdgeTable.twice_eq_ok_iff.mp htwice
    have hline : LogEvent.matrixGrown graph.capacity larger = growthLine graph.capacity.toNat := by
      rw [growthLine, ← hlarger, UInt64.ofNat_toNat, UInt64.ofNat_toNat]
    have hcount : ∀ table : EdgeTable E,
        (({ graph with table := table } : MatrixGraph V E).append vertex).vertexCount =
          graph.capacity.toNat + 1 :=
      fun table => (Array.size_push vertex).trans (congrArg (· + 1) hfull)
    dsimp only
    rw [hline, hcount]
    change ∃ count, Doubled growthLine graph.capacity.toNat _ count larger.toNat _
    rw [hlarger]
    exact ⟨1, Doubled.once hcoherent.side_pos rfl⟩
  · exact ⟨0, Doubled.unchanged hkept⟩

theorem Coherent.step_doubled (hcoherent : graph.Coherent) (call : GraphCall V E) :
    ∃ count, Doubled growthLine graph.capacity.toNat
      (DirectedGraph.perform graph call).2.vertexCount count
      (DirectedGraph.perform graph call).2.capacity.toNat (DirectedGraph.step graph call).log := by
  by_cases hcall : graph.AddsNothing call
  · obtain ⟨hcapacity, hlog⟩ := hcoherent.step_of_addsNothing hcall
    have hfits : (DirectedGraph.perform graph call).2.vertexCount ≤
        (DirectedGraph.perform graph call).2.capacity.toNat :=
      (hcoherent.perform call).vertexCount_le
    rw [hcapacity] at hfits
    rw [hcapacity, hlog]
    exact ⟨0, Doubled.unchanged hfits⟩
  · rw [AddsNothing] at hcall
    push Not at hcall
    obtain ⟨memory, vertex, rfl, -⟩ := hcall
    exact hcoherent.addVertex_doubled memory vertex

/-! ## Runs -/

/-- Whatever calls a new graph answers, its capacity is the first one, doubled as often as the
greatest number of vertices on the way takes, and the log is that of these doublings.  Only a
call for a new vertex changes it. -/
theorem withCapacity_run_doubles {memory : Memory} {capacity : UInt64} (hcapacity : 0 < capacity)
    (hreserve : EdgeTable.reserve E memory capacity = .ok ()) :
    ∃ start : MatrixGraph V E, withCapacity memory capacity = .ok start ∧
      ∀ calls : List (GraphCall V E),
        let final := (Calls.run DirectedGraph.perform start calls).2
        (∃ peak count,
          IsGreatest (Calls.values DirectedGraph.perform vertexCount start calls) peak ∧
            Doubled growthLine capacity.toNat peak count final.capacity.toNat
              (Step.forEach DirectedGraph.step start calls).log) ∧
          ∀ call, final.AddsNothing call →
            (DirectedGraph.perform final call).2.capacity = final.capacity ∧
              (DirectedGraph.step final call).log = [] := by
  refine ⟨_, withCapacity_of_reserve hcapacity hreserve, ?_⟩
  intro calls
  have hstart : (ofTable (.blank capacity) : MatrixGraph V E).Coherent :=
    coherent_ofTable (UInt64.lt_iff_toNat_lt.mp hcapacity)
  have hkept : ∀ (graph : MatrixGraph V E) (call : GraphCall V E), graph.Coherent →
      (DirectedGraph.perform graph call).2.Coherent :=
    fun _ call hbefore => hbefore.perform call
  have hcoherent := Calls.run_invariant hkept calls hstart
  refine ⟨?_, fun call hcall => hcoherent.step_of_addsNothing hcall⟩
  exact Calls.exists_doubled growthLine vertexCount (·.capacity.toNat) Coherent
    DirectedGraph.perform_eq_step hstart (Nat.zero_le _) hkept
    (fun _ call hbefore => hbefore.step_doubled call) calls

end Calls

/-- With room for one vertex at first, the table is doubled for the second vertex and for the
third one, and not again when one takes the place of a removed one. -/
theorem withCapacity_run_doubles_relocatingCalls :
    0 < (1 : UInt64) ∧ EdgeTable.reserve Int64 .unlimited 1 = .ok () ∧
      ∃ start : MatrixGraph Nat Int64, withCapacity .unlimited 1 = .ok start ∧
        ∃ peak count,
          IsGreatest (Calls.values DirectedGraph.perform vertexCount start relocatingCalls) peak ∧
            Doubled growthLine 1 peak count 4 [.matrixGrown 1 2, .matrixGrown 2 4] := by
  have hcapacity : 0 < (1 : UInt64) := by decide
  have hreserve : EdgeTable.reserve Int64 .unlimited 1 = .ok () := by rfl
  obtain ⟨start, hstart, hruns⟩ := withCapacity_run_doubles (V := Nat) hcapacity hreserve
  obtain rfl : ofTable (.blank 1) = start :=
    Except.ok.inj ((withCapacity_of_reserve hcapacity hreserve).symm.trans hstart)
  obtain ⟨⟨peak, count, hgreatest, hdoubled⟩, -⟩ := hruns relocatingCalls
  have hfinal : (Calls.run DirectedGraph.perform (ofTable (.blank 1) : MatrixGraph Nat Int64)
      relocatingCalls).2.capacity.toNat = 4 := by
    cbv
  have hlog : (Step.forEach DirectedGraph.step (ofTable (.blank 1) : MatrixGraph Nat Int64)
      relocatingCalls).log = [.matrixGrown 1 2, .matrixGrown 2 4] := by
    cbv
  rw [hfinal, hlog] at hdoubled
  exact ⟨hcapacity, hreserve, _, hstart, peak, count, hgreatest, hdoubled⟩

end MatrixGraph

end Collections
