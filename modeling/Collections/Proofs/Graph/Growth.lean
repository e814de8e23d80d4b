import Mathlib
import Collections.Proofs.Graph.EdgeTable

/-!
# When a table cannot grow

Two tables of a number of rows are refused if they are beyond the limits on the size of objects,
or if one of the two requests for memory is refused.  The size is checked first, then the memory
for the presences is requested, then that for the costs, and the first refusal is reported.
-/

namespace Collections

universe u

theorem bind_eq_error_iff {α β ε : Type u} {first : Except ε α} {next : α → Except ε β}
    {failure : ε} : (first >>= next) = .error failure ↔
      first = .error failure ∨ ∃ value, first = .ok value ∧ next value = .error failure := by
  cases first with
  | ok value => simp [bind, Except.bind]
  | error other => simp [bind, Except.bind]

/-- A request for a number of bytes is refused, and it is not one for nothing. -/
def Memory.Refuses (memory : Memory) (content : TableContent) (bytes : Nat) : Prop :=
  bytes ≠ 0 ∧ memory.grants content (Word.saturating bytes) = false

instance (memory : Memory) (content : TableContent) (bytes : Nat) :
    Decidable (memory.Refuses content bytes) :=
  inferInstanceAs (Decidable (_ ∧ _))

theorem Memory.request_eq_error_iff {memory : Memory} {content : TableContent} {bytes : Nat}
    {fault : Fault} : memory.request content (Word.saturating bytes) = .error fault ↔
      memory.Refuses content bytes ∧ fault = .outOfMemory (Word.saturating bytes) := by
  rw [request, Refuses, ← Bool.not_eq_true]
  split
  next hgranted =>
    rw [Word.saturating_eq_zero_iff] at hgranted
    apply iff_of_false (by simp)
    rintro ⟨⟨hbytes, hrefused⟩, -⟩
    exact hgranted.elim hbytes hrefused
  next hrefused =>
    rw [Word.saturating_eq_zero_iff, not_or] at hrefused
    rw [Except.error.injEq, and_iff_right hrefused, eq_comm]

theorem Memory.request_eq_ok_iff {memory : Memory} {content : TableContent} {bytes : Nat} :
    memory.request content (Word.saturating bytes) = .ok () ↔ ¬ memory.Refuses content bytes := by
  cases hrequest : memory.request content (Word.saturating bytes) with
  | ok granted =>
      refine iff_of_true rfl fun hrefused => ?_
      rw [request_eq_error_iff.mpr ⟨hrefused, rfl⟩] at hrequest
      exact absurd hrequest (by simp)
  | error fault =>
      exact iff_of_false (by simp) (not_not_intro (request_eq_error_iff.mp hrequest).1)

namespace EdgeTable

variable {E : Type u} [ByteSize E] {memory : Memory} {side : UInt64} {fault : Fault}

/-- The bytes of a cell in both tables. -/
def cellBytes (E : Type u) [ByteSize E] : Nat :=
  (ByteSize.byteSize Bool + ByteSize.byteSize E).toNat

/-- The bytes of the values in a table of so many rows. -/
def tableBytes (E : Type u) [ByteSize E] (side : Nat) : TableContent → Nat
  | .presence => side * side * (ByteSize.byteSize Bool).toNat
  | .costs => side * side * (ByteSize.byteSize E).toNat

/-- The limits on the size of two tables of so many rows: no object can have more cells, and
both tables together cannot have more bytes. -/
structure Addressable (E : Type u) [ByteSize E] (side : Nat) : Prop where
  cells_lt : side * side < 2 ^ 63
  bytes_lt : side * side * cellBytes E < 2 ^ 63

theorem Addressable.side_lt {side : Nat} (hlimits : Addressable E side) : side < 2 ^ 64 :=
  calc
    side ≤ side * side := Nat.le_mul_self side
    _ < 2 ^ 63 := hlimits.cells_lt
    _ < 2 ^ 64 := by decide

/-- Why there cannot be two tables of so many rows. -/
inductive Refusal (E : Type u) [ByteSize E] (memory : Memory) (side : Nat) : Fault → Prop
  | overflows (hside : 2 ^ 64 ≤ side) :
      Refusal E memory side (.parameter .matrixSideOverflows)
  | exceeds (hside : side < 2 ^ 64) (hlimits : ¬ Addressable E side) :
      Refusal E memory side (.parameter (.matrixExceedsMemory (.ofNat side)))
  | presence (hlimits : Addressable E side)
      (hrefused : memory.Refuses .presence (tableBytes E side .presence)) :
      Refusal E memory side (.outOfMemory (Word.saturating (tableBytes E side .presence)))
  | costs (hlimits : Addressable E side)
      (hgranted : ¬ memory.Refuses .presence (tableBytes E side .presence))
      (hrefused : memory.Refuses .costs (tableBytes E side .costs)) :
      Refusal E memory side (.outOfMemory (Word.saturating (tableBytes E side .costs)))

theorem refusal_iff_of_overflows {side : Nat} (hside : 2 ^ 64 ≤ side) :
    Refusal E memory side fault ↔ fault = .parameter .matrixSideOverflows := by
  constructor
  · rintro (- | ⟨hsmall, -⟩ | ⟨hlimits, -⟩ | ⟨hlimits, -, -⟩)
    · rfl
    · exact absurd hsmall (Nat.not_lt_of_le hside)
    · exact absurd hlimits.side_lt (Nat.not_lt_of_le hside)
    · exact absurd hlimits.side_lt (Nat.not_lt_of_le hside)
  · rintro rfl
    exact .overflows hside

theorem refusal_iff_of_exceeds {side : Nat} (hside : side < 2 ^ 64)
    (hlimits : ¬ Addressable E side) : Refusal E memory side fault ↔
      fault = .parameter (.matrixExceedsMemory (.ofNat side)) := by
  constructor
  · rintro (hlarge | - | ⟨hwithin, -⟩ | ⟨hwithin, -, -⟩)
    · exact absurd hside (Nat.not_lt_of_le hlarge)
    · rfl
    · exact absurd hwithin hlimits
    · exact absurd hwithin hlimits
  · rintro rfl
    exact .exceeds hside hlimits

/-- Within the limits, the memory for the presences is requested first. -/
theorem refusal_iff_of_addressable {side : Nat} (hlimits : Addressable E side) :
    Refusal E memory side fault ↔
      (memory.Refuses .presence (tableBytes E side .presence) ∧
        fault = .outOfMemory (Word.saturating (tableBytes E side .presence))) ∨
      ¬ memory.Refuses .presence (tableBytes E side .presence) ∧
        memory.Refuses .costs (tableBytes E side .costs) ∧
          fault = .outOfMemory (Word.saturating (tableBytes E side .costs)) := by
  constructor
  · rintro (hlarge | ⟨-, hexceeds⟩ | ⟨-, hrefused⟩ | ⟨-, hgranted, hrefused⟩)
    · exact absurd hlimits.side_lt (Nat.not_lt_of_le hlarge)
    · exact absurd hlimits hexceeds
    · exact Or.inl ⟨hrefused, rfl⟩
    · exact Or.inr ⟨hgranted, hrefused, rfl⟩
  · rintro (⟨hrefused, rfl⟩ | ⟨hgranted, hrefused, rfl⟩)
    · exact .presence hlimits hrefused
    · exact .costs hlimits hgranted hrefused

/-- Tables are refused for their size or because one of the requests for memory is. -/
theorem exists_refusal_iff {side : Nat} : (∃ fault, Refusal E memory side fault) ↔
    ¬ Addressable E side ∨ memory.Refuses .presence (tableBytes E side .presence) ∨
      memory.Refuses .costs (tableBytes E side .costs) := by
  constructor
  · rintro ⟨fault, hside | ⟨-, hlimits⟩ | ⟨-, hrefused⟩ | ⟨-, -, hrefused⟩⟩
    · exact Or.inl fun hlimits => absurd hlimits.side_lt (Nat.not_lt_of_le hside)
    · exact Or.inl hlimits
    · exact Or.inr (Or.inl hrefused)
    · exact Or.inr (Or.inr hrefused)
  · intro hcause
    by_cases hlimits : Addressable E side
    · by_cases hpresence : memory.Refuses .presence (tableBytes E side .presence)
      · exact ⟨_, .presence hlimits hpresence⟩
      · have hcosts : memory.Refuses .costs (tableBytes E side .costs) :=
          (hcause.resolve_left (not_not_intro hlimits)).resolve_left hpresence
        exact ⟨_, .costs hlimits hpresence hcosts⟩
    · by_cases hside : side < 2 ^ 64
      · exact ⟨_, .exceeds hside hlimits⟩
      · exact ⟨_, .overflows (Nat.le_of_not_lt hside)⟩

theorem cells?_eq_some_iff {count : UInt64} : MatrixSettings.cells? side = some count ↔
    count.toNat = side.toNat * side.toNat ∧
      side.toNat * side.toNat < 2 ^ 63 := by
  rw [MatrixSettings.cells?, Option.filter_eq_some_iff, Word.checkedMul_eq_some_iff,
    decide_eq_true_eq, Word.le_largestObject_iff]
  exact and_congr_right fun hcount => by rw [hcount]

theorem cells_eq_ok_iff {count : UInt64} : cells E side = .ok count ↔
    count.toNat = side.toNat * side.toNat ∧ Addressable E side.toNat := by
  have hfits : (Word.checkedMul count (ByteSize.byteSize Bool + ByteSize.byteSize E)).any
      (· ≤ Word.largestObject) = true ↔ count.toNat * cellBytes E < 2 ^ 63 :=
    Word.checkedMul_any_le_iff
  have hcells : cells E side = .ok count ↔ (MatrixSettings.cells? side).filter (fun product =>
      (Word.checkedMul product (ByteSize.byteSize Bool + ByteSize.byteSize E)).any
        (· ≤ Word.largestObject)) = some count := by
    rw [cells]
    split
    next product hproduct => rw [hproduct, Except.ok.injEq, Option.some.injEq]
    next hnone => simp [hnone]
  rw [hcells, Option.filter_eq_some_iff, hfits, cells?_eq_some_iff]
  constructor
  · rintro ⟨⟨hcount, hcells⟩, hbytes⟩
    exact ⟨hcount, hcells, hcount ▸ hbytes⟩
  · rintro ⟨hcount, hlimits⟩
    exact ⟨⟨hcount, hlimits.cells_lt⟩, hcount ▸ hlimits.bytes_lt⟩

theorem cells_cases (E : Type u) [ByteSize E] (side : UInt64) :
    (∃ count, cells E side = .ok count) ∨
      cells E side = .error (.parameter (.matrixExceedsMemory side)) := by
  rw [cells]
  split
  next count hcount => exact Or.inl ⟨count, rfl⟩
  next hnone => exact Or.inr rfl

theorem exists_cells_iff : (∃ count, cells E side = .ok count) ↔ Addressable E side.toNat := by
  constructor
  · rintro ⟨count, hcount⟩
    exact (cells_eq_ok_iff.mp hcount).2
  · intro hlimits
    refine ⟨.ofNat (side.toNat * side.toNat), cells_eq_ok_iff.mpr ⟨?_, hlimits⟩⟩
    exact UInt64.toNat_ofNat_of_lt' (Nat.lt_trans hlimits.cells_lt (by decide))

theorem cells_eq_error_iff : cells E side = .error fault ↔
    ¬ Addressable E side.toNat ∧ fault = .parameter (.matrixExceedsMemory side) := by
  rw [← exists_cells_iff]
  rcases cells_cases E side with ⟨count, hcount⟩ | hexceeds
  · exact iff_of_false (by simp [hcount]) fun hboth => hboth.1 ⟨count, hcount⟩
  · simp [hexceeds, eq_comm]

/-- The memory that is asked for the tables. -/
theorem saturatingMul_count {count : UInt64} (hcount : count.toNat = side.toNat * side.toNat) :
    Word.saturatingMul count (ByteSize.byteSize Bool) =
        Word.saturating (tableBytes E side.toNat .presence) ∧
      Word.saturatingMul count (ByteSize.byteSize E) =
        Word.saturating (tableBytes E side.toNat .costs) := by
  rw [Word.saturatingMul_eq, Word.saturatingMul_eq, hcount]
  exact ⟨rfl, rfl⟩

theorem reserve_eq_error_iff : reserve E memory side = .error fault ↔
    Refusal E memory side.toNat fault := by
  by_cases hlimits : Addressable E side.toNat
  · obtain ⟨count, hcells⟩ := exists_cells_iff.mpr hlimits
    obtain ⟨hpresence, hcosts⟩ := saturatingMul_count (E := E) (cells_eq_ok_iff.mp hcells).1
    rw [refusal_iff_of_addressable hlimits, reserve, hcells]
    change (memory.request _ _ >>= fun _ => memory.request _ _) = _ ↔ _
    rw [hpresence, hcosts, bind_eq_error_iff, Memory.request_eq_error_iff]
    apply or_congr_right
    constructor
    · rintro ⟨granted, hgranted, hrefused⟩
      exact ⟨Memory.request_eq_ok_iff.mp hgranted, Memory.request_eq_error_iff.mp hrefused⟩
    · rintro ⟨hgranted, hrefused⟩
      exact ⟨(), Memory.request_eq_ok_iff.mpr hgranted, Memory.request_eq_error_iff.mpr hrefused⟩
  · rw [refusal_iff_of_exceeds (UInt64.toNat_lt side) hlimits, UInt64.ofNat_toNat, reserve,
      cells_eq_error_iff.mpr ⟨hlimits, rfl⟩]
    exact ⟨fun hfault => (Except.error.inj hfault).symm, fun hfault => hfault ▸ rfl⟩

variable [Inhabited E]

theorem twice_eq_error_iff {capacity : UInt64} : twice capacity = .error fault ↔
    2 ^ 64 ≤ capacity.toNat * 2 ∧ fault = .parameter .matrixSideOverflows := by
  have hproduct : Word.checkedMul capacity 2 = none ↔
      2 ^ 64 ≤ capacity.toNat * 2 := Word.checkedMul_eq_none_iff
  rw [← hproduct, twice]
  cases Word.checkedMul capacity 2 with
  | some larger => simp
  | none => simp [eq_comm]

/-- A table does not grow exactly if there cannot be one with twice as many rows. -/
theorem grow_eq_error_iff {table : EdgeTable E} {live : Nat} :
    (table.grow memory live).result = .error fault ↔
      Refusal E memory (table.capacity.toNat * 2) fault := by
  rw [grow]
  cases htwice : twice table.capacity with
  | error other =>
      obtain ⟨hlarge, rfl⟩ := twice_eq_error_iff.mp htwice
      rw [refusal_iff_of_overflows hlarge]
      exact ⟨fun hfault => (Except.error.inj hfault).symm, fun hfault => hfault ▸ rfl⟩
  | ok larger =>
      rw [← twice_eq_ok_iff.mp htwice, ← reserve_eq_error_iff]
      cases hreserve : reserve E memory larger with
      | error other => simp [Step.quiet, hreserve]
      | ok granted => simp [hreserve]

end EdgeTable

end Collections
