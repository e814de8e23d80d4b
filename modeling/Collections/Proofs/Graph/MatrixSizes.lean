import Mathlib
import Collections.Proofs.Graph.FailedCalls
import Collections.Proofs.Graph.MatrixReachable

/-!
# Sizes of matrix graphs

The cells and the bytes of the two tables of a graph are counted with 64-bit numbers, and every
product that is too large is noticed.  So tables are invalid exactly if no object can be so
large, and otherwise the memory that is asked for is what the tables need.  In every graph that
there can be, the place of a cell is computed without wrapping, and no two cells share a place.
-/

namespace Collections

universe u v

/-- A place in a square of words that is no larger than an object is computed without wrapping. -/
theorem Word.toNat_place {side : UInt64} {row column : Nat}
    (hcells : side.toNat * side.toNat < 2 ^ 63) (hrow : row < side.toNat)
    (hcolumn : column < side.toNat) :
    (UInt64.ofNat row * side).toNat = row * side.toNat ∧
      (UInt64.ofNat row * side + UInt64.ofNat column).toNat = row * side.toNat + column := by
  have hplace : row * side.toNat + column < 2 ^ 64 :=
    Nat.lt_trans (EdgeTable.place_lt hrow hcolumn) (Nat.lt_trans hcells (by decide))
  have hside := UInt64.toNat_lt side
  have hproduct : (UInt64.ofNat row * side).toNat = row * side.toNat := by
    rw [UInt64.toNat_mul, UInt64.toNat_ofNat_of_lt' (Nat.lt_trans hrow hside)]
    exact Nat.mod_eq_of_lt (by omega)
  refine ⟨hproduct, ?_⟩
  rw [UInt64.toNat_add, hproduct, UInt64.toNat_ofNat_of_lt' (Nat.lt_trans hcolumn hside)]
  exact Nat.mod_eq_of_lt hplace

namespace MatrixSettings

theorem isNone_cells?_eq_false_iff {capacity : UInt64} :
    (cells? capacity).isNone = false ↔ capacity.toNat ^ 2 ≤ 2 ^ 63 - 1 := by
  rw [Option.isNone_eq_false_iff, Option.isSome_iff_exists, Nat.pow_two,
    ← Nat.lt_iff_le_pred (by decide)]
  simp only [EdgeTable.cells?_eq_some_iff]
  constructor
  · rintro ⟨count, -, hsmall⟩
    exact hsmall
  · intro hsmall
    refine ⟨.ofNat (capacity.toNat * capacity.toNat), ?_, hsmall⟩
    exact UInt64.toNat_ofNat_of_lt' (Nat.lt_trans hsmall (by decide))

/-- The capacity of a graph is checked as if its square were a number without bound. -/
theorem validate_eq_ok_iff {capacity : UInt64} : validate ⟨capacity⟩ = .ok () ↔
    1 ≤ capacity.toNat ∧ capacity.toNat ^ 2 ≤ 2 ^ 63 - 1 := by
  rw [← isNone_cells?_eq_false_iff, Nat.one_le_iff_ne_zero, Ne, ← UInt64.toNat_zero,
    UInt64.toNat_inj, validate]
  split
  next hzero => exact iff_of_false (by simp) fun hboth => hboth.1 hzero
  next hpositive =>
    rw [and_iff_right hpositive]
    cases (cells? capacity).isNone <;> simp

theorem validate_cases (settings : MatrixSettings) :
    settings.validate = .ok () ∨ ∃ cause, settings.validate = .error (.parameter cause) := by
  rw [validate]
  split
  next => exact Or.inr ⟨_, rfl⟩
  next =>
    split
    next => exact Or.inr ⟨_, rfl⟩
    next => exact Or.inl rfl

end MatrixSettings

namespace EdgeTable

variable {E : Type u} [ByteSize E] {γ : Type v} {memory : Memory} {side : Nat}
variable {invalid : Prop} {holds : γ → Prop} {result : Except Fault γ} {fault : Fault}

/-- The bytes of one cost. -/
def costBytes (E : Type u) [ByteSize E] : Nat :=
  (ByteSize.byteSize E).toNat

/-- Tables of so many rows have more cells or more bytes than an object can have. -/
def Exceeds (E : Type u) [ByteSize E] (side : Nat) : Prop :=
  2 ^ 63 - 1 < side ^ 2 ∨ 2 ^ 63 - 1 < side ^ 2 * (1 + costBytes E)

instance (side : Nat) : Decidable (Exceeds E side) :=
  inferInstanceAs (Decidable (_ ∨ _))

/-- How a request for two tables of so many rows ends.  One that is valid is for exactly the
bytes of the tables, and the presences come first. -/
structure Allotted (E : Type u) [ByteSize E] (memory : Memory) (side : Nat) (invalid : Prop)
    (holds : γ → Prop) (result : Except Fault γ) : Prop where
  parameter_iff : (∃ cause, result = .error (.parameter cause)) ↔ invalid
  presence_refused : ¬ invalid → memory.Refuses .presence (side ^ 2) →
    ∃ bytes, result = .error (.outOfMemory bytes) ∧ bytes.toNat = side ^ 2
  costs_refused : ¬ invalid → ¬ memory.Refuses .presence (side ^ 2) →
    memory.Refuses .costs (side ^ 2 * costBytes E) →
      ∃ bytes, result = .error (.outOfMemory bytes) ∧ bytes.toNat = side ^ 2 * costBytes E
  granted : ¬ invalid → ¬ memory.Refuses .presence (side ^ 2) →
    ¬ memory.Refuses .costs (side ^ 2 * costBytes E) → ∃ value, result = .ok value ∧ holds value

theorem tableBytes_presence (E : Type u) [ByteSize E] (side : Nat) :
    tableBytes E side .presence = side ^ 2 := by
  rw [Nat.pow_two]
  exact Nat.mul_one _

theorem tableBytes_costs (E : Type u) [ByteSize E] (side : Nat) :
    tableBytes E side .costs = side ^ 2 * costBytes E := by
  rw [Nat.pow_two]
  rfl

/-- A presence and a cost together do not wrap. -/
theorem cellBytes_eq (hsize : costBytes E < 2 ^ 63) : cellBytes E = 1 + costBytes E := by
  rw [cellBytes, UInt64.toNat_add]
  exact Nat.mod_eq_of_lt (show 1 + costBytes E < 2 ^ 64 by omega)

theorem addressable_iff (hsize : costBytes E < 2 ^ 63) :
    Addressable E side ↔ ¬ Exceeds E side := by
  rw [Exceeds, not_or, Nat.not_lt, Nat.not_lt, Nat.pow_two, ← cellBytes_eq hsize,
    ← Nat.lt_iff_le_pred (by decide), ← Nat.lt_iff_le_pred (by decide)]
  exact ⟨fun hlimits => ⟨hlimits.cells_lt, hlimits.bytes_lt⟩, fun hlimits => ⟨hlimits.1, hlimits.2⟩⟩

/-- The bytes of each table are a number that a request can be for. -/
theorem Addressable.tableBytes_lt (hlimits : Addressable E side)
    (hsize : costBytes E < 2 ^ 63) (content : TableContent) :
    tableBytes E side content < 2 ^ 64 := by
  have hbytes := hlimits.bytes_lt
  have hcells := hlimits.cells_lt
  rw [cellBytes_eq hsize, Nat.mul_add, Nat.mul_one, ← Nat.pow_two] at hbytes
  cases content with
  | presence =>
      rw [tableBytes_presence]
      omega
  | costs =>
      rw [tableBytes_costs]
      omega

/-- Within the limits, tables are refused only for want of memory. -/
theorem refusal_iff_of_not_exceeds (hsize : costBytes E < 2 ^ 63) (hlimits : ¬ Exceeds E side) :
    Refusal E memory side fault ↔
      (memory.Refuses .presence (side ^ 2) ∧
        fault = .outOfMemory (Word.saturating (side ^ 2))) ∨
      ¬ memory.Refuses .presence (side ^ 2) ∧
        memory.Refuses .costs (side ^ 2 * costBytes E) ∧
          fault = .outOfMemory (Word.saturating (side ^ 2 * costBytes E)) := by
  rw [refusal_iff_of_addressable ((addressable_iff hsize).mpr hlimits), tableBytes_presence,
    tableBytes_costs]

theorem reserve_of_exceeds {capacity : UInt64} (hsize : costBytes E < 2 ^ 63)
    (hexceeds : Exceeds E capacity.toNat) :
    reserve E memory capacity = .error (.parameter (.matrixExceedsMemory capacity)) := by
  have hlimits := mt (addressable_iff hsize).mp (not_not_intro hexceeds)
  rw [reserve_eq_error_iff, refusal_iff_of_exceeds (UInt64.toNat_lt capacity) hlimits,
    UInt64.ofNat_toNat]

theorem addressable_of_reserve {capacity : UInt64} (hreserve : reserve E memory capacity = .ok ()) :
    Addressable E capacity.toNat := by
  by_contra hlimits
  rw [reserve_eq_error_iff.mpr (.exceeds (UInt64.toNat_lt capacity) hlimits)] at hreserve
  exact absurd hreserve (by simp)

/-- A result is allotted if it fails as a reservation of the tables does. -/
theorem allotted_of_refusal (hsize : costBytes E < 2 ^ 63)
    (hinvalid : invalid → ∃ cause, result = .error (.parameter cause))
    (hlimits : ¬ invalid → ¬ Exceeds E side)
    (hrefusal : ¬ invalid → ∀ fault, result = .error fault ↔ Refusal E memory side fault)
    (hholds : ∀ value, result = .ok value → holds value) :
    Allotted E memory side invalid holds result := by
  -- A valid request can only fail as one within the limits does.
  have hfails (hvalid : ¬ invalid) (fault : Fault) :=
    (hrefusal hvalid fault).trans (refusal_iff_of_not_exceeds hsize (hlimits hvalid))
  have hbytes (hvalid : ¬ invalid) :=
    ((addressable_iff hsize).mpr (hlimits hvalid)).tableBytes_lt hsize
  constructor
  · refine ⟨?_, hinvalid⟩
    rintro ⟨cause, hresult⟩
    by_contra hvalid
    rcases (hfails hvalid _).mp hresult with ⟨-, hfault⟩ | ⟨-, -, hfault⟩ <;>
      exact absurd hfault (by simp)
  · intro hvalid hpresence
    refine ⟨_, (hfails hvalid _).mpr (Or.inl ⟨hpresence, rfl⟩), ?_⟩
    exact Word.toNat_saturating (tableBytes_presence E side ▸ hbytes hvalid .presence)
  · intro hvalid hpresence hcosts
    refine ⟨_, (hfails hvalid _).mpr (Or.inr ⟨hpresence, hcosts, rfl⟩), ?_⟩
    exact Word.toNat_saturating (tableBytes_costs E side ▸ hbytes hvalid .costs)
  · intro hvalid hpresence hcosts
    cases hresult : result with
    | ok value => exact ⟨value, rfl, hholds value hresult⟩
    | error fault =>
        rcases (hfails hvalid fault).mp hresult with ⟨hrefused, -⟩ | ⟨-, hrefused, -⟩
        · exact absurd hrefused hpresence
        · exact absurd hrefused hcosts

end EdgeTable

namespace MatrixGraph

open EdgeTable

variable {V : Type u} {E : Type v} [BEq V] [Hashable V] [Inhabited E] [ByteSize E]
variable {graph : MatrixGraph V E} {memory : Memory} {capacity : UInt64}

/-! ## New graphs -/

/-- A new graph is refused for its capacity or the sizes of its tables, and otherwise only for
want of memory. -/
theorem withCapacity_allotted (hsize : costBytes E < 2 ^ 63) (memory : Memory)
    (capacity : UInt64) :
    Allotted E memory capacity.toNat (capacity.toNat = 0 ∨ Exceeds E capacity.toNat)
      (fun graph : MatrixGraph V E => graph = ofTable (.blank capacity))
      (withCapacity memory capacity) := by
  apply allotted_of_refusal hsize
  · intro hinvalid
    -- The settings are checked first, so of a valid capacity only the bytes can be too many.
    rcases MatrixSettings.validate_cases ⟨capacity⟩ with hvalid | ⟨cause, hcause⟩
    · have hpositive := (MatrixSettings.validate_eq_ok_iff.mp hvalid).1
      have hexceeds : Exceeds E capacity.toNat := hinvalid.resolve_left (by omega)
      rw [withCapacity_of_valid hvalid, reserve_of_exceeds hsize hexceeds]
      exact ⟨_, rfl⟩
    · rw [withCapacity, withSettings, hcause]
      exact ⟨cause, rfl⟩
  · exact fun hvalid hexceeds => hvalid (Or.inr hexceeds)
  · intro hvalid fault
    rw [not_or, Exceeds, not_or, Nat.not_lt] at hvalid
    obtain ⟨hpositive, hcells, -⟩ := hvalid
    have haccepted := MatrixSettings.validate_eq_ok_iff.mpr
      ⟨Nat.pos_of_ne_zero hpositive, hcells⟩
    rw [withCapacity_of_valid haccepted, ← reserve_eq_error_iff]
    cases reserve E memory capacity <;> simp [Except.map]
  · exact fun graph hgraph => (withSettings_eq_ok hgraph).2.2

/-! ## Full graphs -/

/-- A full graph is refused a new vertex if tables of twice its capacity are refused. -/
theorem addVertex_allotted (hsize : costBytes E < 2 ^ 63) (memory : Memory) {vertex : V}
    (habsent : graph.hasVertex vertex = false)
    (hfull : graph.vertexCount = graph.capacity.toNat) :
    Allotted E memory (graph.capacity.toNat * 2) (Exceeds E (graph.capacity.toNat * 2))
      (fun added => added = true ∧
        (graph.addVertex memory vertex).state.capacity.toNat = graph.capacity.toNat * 2)
      (graph.addVertex memory vertex).result := by
  have hrefusal (fault : Fault) : (graph.addVertex memory vertex).result = .error fault ↔
      Refusal E memory (graph.capacity.toNat * 2) fault := by
    rw [addVertex_eq_error_iff, and_iff_right habsent, and_iff_right hfull]
  apply allotted_of_refusal hsize
  · intro hexceeds
    simp only [hrefusal]
    by_cases hside : graph.capacity.toNat * 2 < 2 ^ 64
    · exact ⟨_, .exceeds hside fun hlimits => (addressable_iff hsize).mp hlimits hexceeds⟩
    · exact ⟨_, .overflows (Nat.le_of_not_lt hside)⟩
  · exact fun hvalid => hvalid
  · exact fun _ => hrefusal
  · intro added hadded
    rcases addVertex_cases memory graph vertex with
      ⟨hpresent, -⟩ | ⟨-, hroom, -⟩ | ⟨-, -, larger, htwice, -, hstep⟩ | ⟨-, -, -, fault, hstep⟩
    · exact absurd hpresent (by simp [habsent])
    · exact absurd hfull hroom
    · rw [hstep] at hadded ⊢
      exact ⟨(Except.ok.inj hadded).symm, twice_eq_ok_iff.mp htwice⟩
    · rw [hstep] at hadded
      exact absurd hadded (by simp [Step.quiet])

theorem addVertex_of_overflows {vertex : V} (habsent : graph.hasVertex vertex = false)
    (hfull : graph.vertexCount = graph.capacity.toNat)
    (hside : 2 ^ 64 ≤ graph.capacity.toNat * 2) (memory : Memory) :
    (graph.addVertex memory vertex).result = .error (.parameter .matrixSideOverflows) :=
  addVertex_eq_error_iff.mpr ⟨habsent, hfull, .overflows hside⟩

/-! ## Reachable graphs -/

/-- A new graph with settings for which memory was granted. -/
def Configured (graph : MatrixGraph V E) : Prop :=
  ∃ memory settings, withSettings memory settings = .ok graph

/-- The tables of a graph are not too large, and the place of the cell of two vertices, which is
computed with words, is a place of its own in both of them. -/
structure PlacesCells (graph : MatrixGraph V E) : Prop where
  bytes_le : graph.capacity.toNat ^ 2 * (1 + costBytes E) ≤ 2 ^ 63 - 1
  toNat_place : ∀ row column, row < graph.vertexCount → column < graph.vertexCount →
    (UInt64.ofNat row * graph.capacity).toNat = row * graph.capacity.toNat ∧
      (UInt64.ofNat row * graph.capacity + UInt64.ofNat column).toNat =
        graph.table.cell row column
  place_lt : ∀ row column, row < graph.vertexCount → column < graph.vertexCount →
    graph.table.cell row column < graph.table.presence.size ∧
      graph.table.cell row column < graph.table.costs.size
  place_inj : ∀ row column otherRow otherColumn, row < graph.vertexCount →
    column < graph.vertexCount → otherRow < graph.vertexCount →
      otherColumn < graph.vertexCount →
        graph.table.cell row column = graph.table.cell otherRow otherColumn →
          row = otherRow ∧ column = otherColumn

theorem Configured.addressable (hconfigured : graph.Configured) :
    Addressable E graph.capacity.toNat := by
  obtain ⟨memory, settings, hgraph⟩ := hconfigured
  obtain ⟨-, hreserve, rfl⟩ := withSettings_eq_ok hgraph
  exact addressable_of_reserve hreserve

theorem Coherent.placesCells (hcoherent : graph.Coherent) (hsize : costBytes E < 2 ^ 63)
    (hlimits : Addressable E graph.capacity.toNat) : graph.PlacesCells := by
  have hinside {index : Nat} (hindex : index < graph.vertexCount) : index < graph.table.side :=
    Nat.lt_of_lt_of_le hindex hcoherent.vertexCount_le
  have hplace {row column : Nat} (hrow : row < graph.vertexCount)
      (hcolumn : column < graph.vertexCount) :=
    EdgeTable.place_lt (hinside hrow) (hinside hcolumn)
  exact {
    bytes_le := by
      have hbytes := hlimits.bytes_lt
      rw [cellBytes_eq hsize, ← Nat.pow_two] at hbytes
      exact Nat.le_sub_one_of_lt hbytes
    toNat_place := by
      intro row column hrow hcolumn
      exact Word.toNat_place hlimits.cells_lt (hinside hrow) (hinside hcolumn)
    place_lt := by
      intro row column hrow hcolumn
      rw [hcoherent.table.size_presence, hcoherent.table.size_costs]
      exact ⟨hplace hrow hcolumn, hplace hrow hcolumn⟩
    place_inj := by
      intro row column otherRow otherColumn _ hcolumn _ hother hsame
      exact (EdgeTable.place_inj (hinside hcolumn) (hinside hother)).mp hsame }

variable [EquivBEq V] [LawfulHashable V]

theorem Configured.coherent (hconfigured : graph.Configured) : graph.Coherent :=
  Initial.coherent (Or.inr hconfigured)

/-- Only adding a vertex can change the capacity. -/
theorem Coherent.capacity_perform_of_ne [Literal V] (hcoherent : graph.Coherent)
    {call : GraphCall V E} (hcall : ∀ memory vertex, call ≠ .addVertex memory vertex) :
    (DirectedGraph.perform graph call).2.capacity = graph.capacity := by
  cases call with
  | addVertex memory vertex => exact absurd rfl (hcall memory vertex)
  | addEdge source target cost =>
      change (graph.addEdge source target cost).2.capacity = _
      rw [addEdge]
      split <;> rfl
  | removeEdge source target =>
      change (graph.removeEdge source target).2.capacity = _
      rw [removeEdge]
      split
      · exact capacity_dropEdge graph _ _
      · rfl
  | removeVertex vertex =>
      change (graph.removeVertex vertex).2.capacity = _
      cases hremoved : graph.indexOf? vertex with
      | none => rw [removeVertex_of_none hremoved]
      | some freed => exact (takenOver_removeVertex hcoherent hremoved).capacity
  | clear => rfl

/-- A call leaves the capacity, or memory was granted for tables of the new one. -/
theorem Coherent.capacity_perform [Literal V] (hcoherent : graph.Coherent)
    (call : GraphCall V E) :
    (DirectedGraph.perform graph call).2.capacity = graph.capacity ∨
      ∃ memory, reserve E memory (DirectedGraph.perform graph call).2.capacity = .ok () := by
  cases call with
  | addVertex memory vertex =>
      change (graph.addVertex memory vertex).state.capacity = _ ∨
        ∃ memory, reserve E memory (graph.addVertex _ vertex).state.capacity = _
      rcases addVertex_cases memory graph vertex with
        ⟨-, hstep⟩ | ⟨-, -, hstep⟩ | ⟨-, -, larger, -, hreserve, hstep⟩ |
          ⟨-, -, -, fault, hstep⟩ <;> rw [hstep]
      · exact Or.inl rfl
      · exact Or.inl rfl
      · exact Or.inr ⟨memory, hreserve⟩
      · exact Or.inl rfl
  | addEdge source target cost => exact Or.inl (hcoherent.capacity_perform_of_ne (by simp))
  | removeEdge source target => exact Or.inl (hcoherent.capacity_perform_of_ne (by simp))
  | removeVertex vertex => exact Or.inl (hcoherent.capacity_perform_of_ne (by simp))
  | clear => exact Or.inl (hcoherent.capacity_perform_of_ne (by simp))

/-- No call makes tables that are too large. -/
theorem placesCells_of_reached [Literal V] (hsize : costBytes E < 2 ^ 63)
    (hreached : Calls.Reachable Configured DirectedGraph.perform graph) :
    graph.PlacesCells := by
  have hstart (start : MatrixGraph V E) (hconfigured : start.Configured) :
      start.Coherent ∧ Addressable E start.capacity.toNat :=
    ⟨hconfigured.coherent, hconfigured.addressable⟩
  have hstep (state : MatrixGraph V E) (call : GraphCall V E)
      (hfits : state.Coherent ∧ Addressable E state.capacity.toNat) :
      (DirectedGraph.perform state call).2.Coherent ∧
        Addressable E (DirectedGraph.perform state call).2.capacity.toNat := by
    refine ⟨hfits.1.perform call, ?_⟩
    rcases hfits.1.capacity_perform call with hkept | ⟨memory, hreserve⟩
    · exact hkept.symm ▸ hfits.2
    · exact addressable_of_reserve hreserve
  obtain ⟨hcoherent, hlimits⟩ := Calls.Reachable.invariant hstart hstep hreached
  exact hcoherent.placesCells hsize hlimits

/-- The sizes of the tables of a graph are exact: a capacity is accepted, a graph is made and a
full graph grows as numbers without bound say, whatever requests for memory are refused, and in
every graph that calls lead to the cells have places of their own. -/
theorem sizes_exact [Literal V] (hsize : costBytes E < 2 ^ 63) :
    (∀ capacity : UInt64, MatrixSettings.validate ⟨capacity⟩ = .ok () ↔
      1 ≤ capacity.toNat ∧ capacity.toNat ^ 2 ≤ 2 ^ 63 - 1) ∧
    (∀ memory (capacity : UInt64),
      Allotted E memory capacity.toNat (capacity.toNat = 0 ∨ Exceeds E capacity.toNat)
        (fun graph : MatrixGraph V E => graph = ofTable (.blank capacity))
        (withCapacity memory capacity)) ∧
    (∀ memory (graph : MatrixGraph V E) vertex, graph.hasVertex vertex = false →
      graph.vertexCount = graph.capacity.toNat →
        Allotted E memory (graph.capacity.toNat * 2) (Exceeds E (graph.capacity.toNat * 2))
          (fun added => added = true ∧
            (graph.addVertex memory vertex).state.capacity.toNat = graph.capacity.toNat * 2)
          (graph.addVertex memory vertex).result ∧
        (2 ^ 64 ≤ graph.capacity.toNat * 2 → (graph.addVertex memory vertex).result =
          .error (.parameter .matrixSideOverflows))) ∧
    ∀ graph : MatrixGraph V E, Calls.Reachable Configured DirectedGraph.perform graph →
      graph.PlacesCells := by
  refine ⟨fun capacity => MatrixSettings.validate_eq_ok_iff,
    withCapacity_allotted hsize, ?_, fun graph => placesCells_of_reached hsize⟩
  intro memory graph vertex habsent hfull
  exact ⟨addVertex_allotted hsize memory habsent hfull,
    fun hside => addVertex_of_overflows habsent hfull hside memory⟩

/-- A graph with room for one vertex, which it has. -/
def singleton : MatrixGraph Nat Int64 :=
  (ofTable (.blank 1)).append 7

/-- Calls in which the table grows. -/
def growingCalls : List (GraphCall Nat Int64) :=
  [.addVertex .unlimited 7, .addVertex .unlimited 8, .addEdge 8 8 5]

/-- For the first graph the bytes of the costs are too many, for the second the memory for the
costs is refused, and the third cannot grow for want of memory for its presences. -/
theorem sizes_exact_singleton :
    costBytes Int64 < 2 ^ 63 ∧
      (∃ cause, (withCapacity .unlimited 2147483648 : Except Fault (MatrixGraph Nat Int64)) =
        .error (.parameter cause)) ∧
      (∃ bytes, (withCapacity (.below 10) 3 : Except Fault (MatrixGraph Nat Int64)) =
        .error (.outOfMemory bytes) ∧ bytes.toNat = 72) ∧
      (∃ bytes, (singleton.addVertex (.below 4) 8).result = .error (.outOfMemory bytes) ∧
        bytes.toNat = 4) ∧
      (Calls.run DirectedGraph.perform (ofTable (.blank 1) : MatrixGraph Nat Int64)
        growingCalls).2.PlacesCells := by
  have hsize : costBytes Int64 < 2 ^ 63 := by decide
  obtain ⟨-, hnew, hfull, hreached⟩ := sizes_exact (V := Nat) hsize
  have hconfigured : Configured (ofTable (.blank 1) : MatrixGraph Nat Int64) :=
    ⟨.unlimited, ⟨1⟩, rfl⟩
  have hvalid : ¬ (UInt64.toNat 3 = 0 ∨ Exceeds Int64 (UInt64.toNat 3)) := by decide
  have hgrows : ¬ Exceeds Int64 (singleton.capacity.toNat * 2) := by decide
  refine ⟨hsize, ?_, ?_, ?_, ?_⟩
  · exact (hnew .unlimited 2147483648).parameter_iff.mpr (by decide)
  · exact (hnew (.below 10) 3).costs_refused hvalid (by decide) (by decide)
  · exact (hfull (.below 4) singleton 8 (by cbv) (by cbv)).1.presence_refused hgrows (by decide)
  · exact hreached _ (Calls.Reachable.run growingCalls (.start hconfigured))

end MatrixGraph

end Collections
