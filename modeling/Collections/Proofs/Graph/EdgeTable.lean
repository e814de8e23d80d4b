import Mathlib
import Collections.Graph.EdgeTable
import Collections.Proofs.Word

/-!
# Cells of edge tables

A table is known by the edge that it has in each cell.  For a well-formed table
every operation is described by the edges after it, so that nothing else needs to
look at the two arrays.  The edges of a table are counted as a set of cells.
-/

namespace Collections

universe u

namespace EdgeTable

variable {E : Type u}

/-- The number of rows, as a number without bound. -/
abbrev side (table : EdgeTable E) : Nat :=
  table.capacity.toNat

/-- Both arrays are square, and the cost of a cell without an edge is the default. -/
structure WellFormed [Inhabited E] (table : EdgeTable E) : Prop where
  size_presence : table.presence.size = table.side * table.side
  size_costs : table.costs.size = table.side * table.side
  absent_cost : ∀ place : Nat, table.presence[place]? = some false →
    table.costs[place]? = some (default : E)

/-! ## Places -/

theorem place_lt {row column side : Nat} (hrow : row < side) (hcolumn : column < side) :
    row * side + column < side * side := by
  calc
    row * side + column < row * side + side := by omega
    _ = (row + 1) * side := by rw [Nat.add_mul, Nat.one_mul]
    _ ≤ side * side := Nat.mul_le_mul_right side hrow

theorem place_div {row column side : Nat} (hcolumn : column < side) :
    (row * side + column) / side = row := by
  rw [Nat.mul_comm, Nat.mul_add_div (by omega), Nat.div_eq_of_lt hcolumn, Nat.add_zero]

theorem place_mod {row column side : Nat} (hcolumn : column < side) :
    (row * side + column) % side = column := by
  rw [Nat.mul_comm, Nat.mul_add_mod, Nat.mod_eq_of_lt hcolumn]

/-- Two cells of one table share a place only if they are the same cell. -/
theorem place_inj {row column otherRow otherColumn side : Nat}
    (hcolumn : column < side) (hother : otherColumn < side) :
    row * side + column = otherRow * side + otherColumn ↔
      row = otherRow ∧ column = otherColumn := by
  constructor
  · intro hplace
    constructor
    · calc
        row = (row * side + column) / side := (place_div hcolumn).symm
        _ = (otherRow * side + otherColumn) / side := by rw [hplace]
        _ = otherRow := place_div hother
    · calc
        column = (row * side + column) % side := (place_mod hcolumn).symm
        _ = (otherRow * side + otherColumn) % side := by rw [hplace]
        _ = otherColumn := place_mod hother
  · rintro ⟨rfl, rfl⟩
    rfl

/-! ## Writing one cell -/

section Cells

variable [Inhabited E]

/-- Puts an edge into a cell or leaves it without one. -/
def write (table : EdgeTable E) (row column : Nat) (content : Option E) : EdgeTable E :=
  { table with
    presence := table.presence.setIfInBounds (table.cell row column) content.isSome
    costs := table.costs.setIfInBounds (table.cell row column) (content.getD default) }

theorem put_eq_write (table : EdgeTable E) (row column : Nat) (cost : E) :
    table.put row column cost = table.write row column (some cost) := rfl

theorem erase_eq_write (table : EdgeTable E) (row column : Nat) :
    table.erase row column = table.write row column none := rfl

/-- The cost that a cell holds is that of its edge, and otherwise the default. -/
theorem getD_costs_eq {table : EdgeTable E} (hwell : table.WellFormed) (row column : Nat) :
    table.costs[table.cell row column]?.getD default =
      (table.edge? row column).getD default := by
  cases hpresent : table.present row column with
  | true => rw [edge?, if_pos hpresent]
  | false =>
      rw [edge?, if_neg (Bool.eq_false_iff.mp hpresent), Option.getD_none]
      cases hflag : table.presence[table.cell row column]? with
      | none =>
          have houtside : table.costs.size ≤ table.cell row column := by
            rw [hwell.size_costs, ← hwell.size_presence]
            exact Array.getElem?_eq_none_iff.mp hflag
          rw [Array.getElem?_eq_none houtside, Option.getD_none]
      | some flag =>
          obtain rfl : flag = false := by rwa [present, hflag] at hpresent
          rw [hwell.absent_cost _ hflag, Option.getD_some]

@[simp]
theorem capacity_write (table : EdgeTable E) (row column : Nat) (content : Option E) :
    (table.write row column content).capacity = table.capacity := rfl

theorem WellFormed.write {table : EdgeTable E} (hwell : table.WellFormed)
    (row column : Nat) (content : Option E) :
    (table.write row column content).WellFormed where
  size_presence := by
    simpa [EdgeTable.write] using hwell.size_presence
  size_costs := by
    simpa [EdgeTable.write] using hwell.size_costs
  absent_cost := by
    intro place habsent
    simp only [EdgeTable.write, Array.getElem?_setIfInBounds] at habsent ⊢
    rw [hwell.size_presence] at habsent
    rw [hwell.size_costs]
    split at habsent
    · split at habsent
      · have hnone : content = none := by simpa using habsent
        simp_all
      · simp at habsent
    · simp_all [hwell.absent_cost place]

/-! ## Reading a cell -/

/-- A well-formed table has a cost wherever it has an edge. -/
theorem present_eq_isSome {table : EdgeTable E} (hwell : table.WellFormed)
    (row column : Nat) :
    table.present row column = (table.edge? row column).isSome := by
  unfold edge?
  cases hpresent : table.present row column with
  | false => rfl
  | true =>
      have hplace : table.cell row column < table.presence.size := by
        by_contra houtside
        simp [present, Array.getElem?_eq_none (Nat.le_of_not_lt houtside)] at hpresent
      rw [hwell.size_presence, ← hwell.size_costs] at hplace
      simp [hplace]

/-- A cost without an edge is the default, so only the edge of a cell is moved. -/
theorem move_eq_write {table : EdgeTable E} (hwell : table.WellFormed)
    (row column toRow toColumn : Nat) :
    table.move row column toRow toColumn =
      (table.write row column none).write toRow toColumn (table.edge? row column) := by
  simp only [move, write, erase_eq_write, present_eq_isSome hwell, getD_costs_eq hwell]
  rfl

/-- The flag of a cell without an edge is there and is not set. -/
theorem getElem?_presence_of_none {table : EdgeTable E} (hwell : table.WellFormed)
    {row column : Nat} (hrow : row < table.side) (hcolumn : column < table.side)
    (hnone : table.edge? row column = none) :
    table.presence[table.cell row column]? = some false := by
  have hplace : table.cell row column < table.presence.size := by
    rw [hwell.size_presence]
    exact place_lt hrow hcolumn
  have habsent : table.present row column = false := by
    rw [present_eq_isSome hwell, hnone]
    rfl
  rw [present, Array.getElem?_eq_getElem hplace, Option.getD_some] at habsent
  rw [Array.getElem?_eq_getElem hplace, habsent]

theorem edge?_write {table : EdgeTable E} (hwell : table.WellFormed)
    {row column : Nat} (hrow : row < table.side) (hcolumn : column < table.side)
    (content : Option E) (otherRow : Nat) {otherColumn : Nat}
    (hother : otherColumn < table.side) :
    (table.write row column content).edge? otherRow otherColumn =
      if otherRow = row ∧ otherColumn = column then content
      else table.edge? otherRow otherColumn := by
  have hplace := place_lt hrow hcolumn
  have hpresence : table.cell row column < table.presence.size := by
    rw [hwell.size_presence]
    exact hplace
  have hcosts : table.cell row column < table.costs.size := by
    rw [hwell.size_costs]
    exact hplace
  have hsame : table.cell row column = table.cell otherRow otherColumn ↔
      otherRow = row ∧ otherColumn = column := by
    rw [cell, cell, place_inj hcolumn hother]
    exact and_congr eq_comm eq_comm
  have hcell : (table.write row column content).cell otherRow otherColumn =
      table.cell otherRow otherColumn := rfl
  by_cases hhere : otherRow = row ∧ otherColumn = column
  · obtain ⟨rfl, rfl⟩ := hhere
    simp only [edge?, present, hcell]
    cases content <;> simp [EdgeTable.write, hpresence, hcosts]
  · have hne : table.cell row column ≠ table.cell otherRow otherColumn :=
      fun heq => hhere (hsame.mp heq)
    have hpresent : (table.write row column content).present otherRow otherColumn =
        table.present otherRow otherColumn := by
      rw [present, present, hcell]
      simp [EdgeTable.write, Array.getElem?_setIfInBounds_ne hne]
    have hcost : (table.write row column content).costs[table.cell otherRow otherColumn]? =
        table.costs[table.cell otherRow otherColumn]? :=
      Array.getElem?_setIfInBounds_ne hne
    rw [if_neg hhere, edge?, edge?, hpresent, hcell, hcost]

/-- Moving an edge to another cell, which then holds what the first one held. -/
theorem edge?_move {table : EdgeTable E} (hwell : table.WellFormed)
    {row column toRow toColumn : Nat} (hrow : row < table.side)
    (hcolumn : column < table.side) (htoRow : toRow < table.side)
    (htoColumn : toColumn < table.side) (otherRow : Nat) {otherColumn : Nat}
    (hother : otherColumn < table.side) :
    (table.move row column toRow toColumn).edge? otherRow otherColumn =
      if otherRow = toRow ∧ otherColumn = toColumn then table.edge? row column
      else if otherRow = row ∧ otherColumn = column then none
      else table.edge? otherRow otherColumn := by
  rw [move_eq_write hwell, edge?_write (hwell.write row column none) htoRow htoColumn _ _ hother,
    edge?_write hwell hrow hcolumn _ _ hother]

@[simp]
theorem capacity_move (table : EdgeTable E) (row column toRow toColumn : Nat) :
    (table.move row column toRow toColumn).capacity = table.capacity := rfl

theorem WellFormed.move {table : EdgeTable E} (hwell : table.WellFormed)
    (row column toRow toColumn : Nat) :
    (table.move row column toRow toColumn).WellFormed := by
  rw [move_eq_write hwell]
  exact (hwell.write row column none).write toRow toColumn _

/-! ## Whole tables -/

@[simp]
theorem edge?_blank (capacity : UInt64) (row column : Nat) :
    (blank capacity : EdgeTable E).edge? row column = none := by
  have hpresent : (blank capacity : EdgeTable E).present row column = false := by
    simp only [present, blank, Array.getElem?_replicate]
    split <;> rfl
  simp [edge?, hpresent]

theorem wellFormed_blank (capacity : UInt64) :
    (blank capacity : EdgeTable E).WellFormed where
  size_presence := Array.size_replicate
  size_costs := Array.size_replicate
  absent_cost := by
    intro place habsent
    simp only [blank, Array.getElem?_replicate] at habsent ⊢
    split at habsent <;> simp_all

/-- A larger table has the edges among the indices that were kept, and no others. -/
theorem edge?_enlarge {table : EdgeTable E} (hwell : table.WellFormed)
    {larger : UInt64} {live : Nat} (hlive : live ≤ table.side)
    (hlarger : live ≤ larger.toNat) (row : Nat) {column : Nat}
    (hcolumn : column < larger.toNat) :
    (table.enlarge larger live).edge? row column =
      if row < live ∧ column < live then table.edge? row column else none := by
  by_cases hrow : row < larger.toNat
  · have hplace := place_lt hrow hcolumn
    have hcell : (table.enlarge larger live).cell row column =
        row * larger.toNat + column := rfl
    simp only [edge?, present, hcell]
    simp only [enlarge, Array.getElem?_ofFn, hplace, dite_true, place_div hcolumn,
      place_mod hcolumn, Option.getD_some]
    by_cases hkept : row < live ∧ column < live
    · have hinside : table.cell row column < table.costs.size := by
        have hrowInside : row < table.side := Nat.lt_of_lt_of_le hkept.1 hlive
        have hcolumnInside : column < table.side := Nat.lt_of_lt_of_le hkept.2 hlive
        rw [hwell.size_costs]
        exact place_lt hrowInside hcolumnInside
      simp [hkept.1, hkept.2, hinside]
    · rw [if_neg hkept]
      have hnot : (decide (row < live) && decide (column < live)) = false := by
        simpa using hkept
      simp [hnot]
  · have hgone : ¬ (row < live ∧ column < live) := by omega
    have houtside : larger.toNat * larger.toNat ≤ row * larger.toNat + column :=
      Nat.le_add_right_of_le (Nat.mul_le_mul_right _ (Nat.le_of_not_lt hrow))
    have hcell : (table.enlarge larger live).cell row column =
        row * larger.toNat + column := rfl
    rw [if_neg hgone]
    simp only [edge?, present, hcell]
    simp [enlarge, Nat.not_lt.mpr houtside]

theorem WellFormed.enlarge {table : EdgeTable E} (hwell : table.WellFormed)
    (larger : UInt64) (live : Nat) : (table.enlarge larger live).WellFormed where
  size_presence := Array.size_ofFn
  size_costs := Array.size_ofFn
  absent_cost := by
    intro place habsent
    simp only [EdgeTable.enlarge, Array.getElem?_ofFn] at habsent ⊢
    split at habsent
    next hplace =>
      rw [dif_pos hplace]
      simp only [Option.some.injEq] at habsent ⊢
      split
      next hkept =>
        rw [hkept, Bool.true_and] at habsent
        generalize table.cell (place / larger.toNat) (place % larger.toNat) = former at habsent ⊢
        cases hformer : table.presence[former]? with
        | none =>
            have houtside : table.costs.size ≤ former := by
              rw [hwell.size_costs, ← hwell.size_presence]
              exact Array.getElem?_eq_none_iff.mp hformer
            simp [houtside]
        | some flag =>
            have hflag : flag = false := by simpa [hformer] using habsent
            subst hflag
            simp [hwell.absent_cost former hformer]
      next => rfl
    next => simp at habsent

/-! ## Relocation -/

/-- The edges after the row and the column of the last index have been moved to the
freed index, as far as they concern a list of other indices. -/
def shifted (edge : Nat → Nat → Option E) (last freed : Nat) (others : List Nat)
    (row column : Nat) : Option E :=
  if row = freed ∧ column ∈ others then edge last column
  else if column = freed ∧ row ∈ others then edge row last
  else if (row = last ∧ column ∈ others) ∨ (column = last ∧ row ∈ others) then none
  else edge row column

/-- Moves the two edges that connect the last index with another one. -/
def relocateOne (last freed : Nat) (table : EdgeTable E) (other : Nat) : EdgeTable E :=
  (table.move last other freed other).move other last other freed

@[simp]
theorem capacity_relocateOne (last freed : Nat) (table : EdgeTable E) (other : Nat) :
    (relocateOne last freed table other).capacity = table.capacity := by
  simp [relocateOne]

theorem WellFormed.relocateOne {table : EdgeTable E} (hwell : table.WellFormed)
    (last freed other : Nat) : (relocateOne last freed table other).WellFormed :=
  (hwell.move last other freed other).move other last other freed

theorem edge?_relocateOne {table : EdgeTable E} (hwell : table.WellFormed)
    {last freed other : Nat} (hlast : last < table.side) (hfreed : freed < table.side)
    (hother : other < table.side) (hotherLast : other ≠ last) (hotherFreed : other ≠ freed)
    (row : Nat) {column : Nat} (hcolumn : column < table.side) :
    (relocateOne last freed table other).edge? row column =
      shifted table.edge? last freed [other] row column := by
  have hmoved := hwell.move last other freed other
  have hside : (table.move last other freed other).side = table.side := by
    simp only [side, capacity_move]
  rw [relocateOne, edge?_move hmoved (by omega) (by omega) (by omega) (by omega) row
      (by omega : column < (table.move last other freed other).side),
    edge?_move hwell hlast hother hfreed hother row hcolumn,
    edge?_move hwell hlast hother hfreed hother other hlast]
  simp only [shifted, List.mem_singleton]
  grind

theorem wellFormed_foldl_relocateOne (last freed : Nat) (others : List Nat) :
    ∀ table : EdgeTable E, table.WellFormed →
      (others.foldl (relocateOne last freed) table).WellFormed ∧
        (others.foldl (relocateOne last freed) table).capacity = table.capacity := by
  induction others with
  | nil => exact fun table hwell => ⟨hwell, rfl⟩
  | cons other others ih =>
      intro table hwell
      obtain ⟨hrest, hcapacity⟩ := ih _ (hwell.relocateOne last freed other)
      exact ⟨hrest, hcapacity.trans (capacity_relocateOne last freed table other)⟩

/-- The rounds of a relocation do not disturb each other. -/
theorem edge?_foldl_relocateOne {last freed : Nat} (others : List Nat)
    (hnodup : others.Nodup) (hlastOut : last ∉ others) (hfreedOut : freed ∉ others) :
    ∀ table : EdgeTable E, table.WellFormed → last < table.side → freed < table.side →
      (∀ other ∈ others, other < table.side) →
      ∀ row column, column < table.side →
        (others.foldl (relocateOne last freed) table).edge? row column =
          shifted table.edge? last freed others row column := by
  induction others with
  | nil =>
      intro table _ _ _ _ row column _
      simp [shifted]
  | cons other others ih =>
      intro table hwell hlast hfreed hothers row column hcolumn
      rw [List.nodup_cons] at hnodup
      rw [List.mem_cons, not_or] at hlastOut hfreedOut
      have hother : other < table.side := hothers other List.mem_cons_self
      have hround : ∀ row column, column < table.side →
          (relocateOne last freed table other).edge? row column =
            shifted table.edge? last freed [other] row column :=
        fun row column hcolumn => edge?_relocateOne hwell hlast hfreed hother
          (Ne.symm hlastOut.1) (Ne.symm hfreedOut.1) row hcolumn
      have hrest := ih hnodup.2 hlastOut.2 hfreedOut.2 (relocateOne last freed table other)
        (hwell.relocateOne last freed other)
        (by simpa only [side, capacity_relocateOne] using hlast)
        (by simpa only [side, capacity_relocateOne] using hfreed)
        (by
          intro another hanother
          simpa only [side, capacity_relocateOne] using
            hothers another (List.mem_cons_of_mem other hanother))
        row column (by simpa only [side, capacity_relocateOne] using hcolumn)
      rw [List.foldl_cons, hrest]
      simp only [shifted, hround _ _ hcolumn, hround _ _ hlast, List.mem_cons]
      grind

/-- The index whose edges an index has after the last one took the freed one's place. -/
def origin (last freed index : Nat) : Nat :=
  if index = freed then last else index

theorem relocate_eq (table : EdgeTable E) (last freed : Nat) :
    table.relocate last freed =
      (((List.range last).filter (· ≠ freed)).foldl (relocateOne last freed) table).move
        last last freed freed := rfl

@[simp]
theorem capacity_relocate {table : EdgeTable E} (hwell : table.WellFormed)
    (last freed : Nat) : (table.relocate last freed).capacity = table.capacity := by
  rw [relocate_eq, capacity_move]
  exact (wellFormed_foldl_relocateOne last freed _ table hwell).2

theorem WellFormed.relocate {table : EdgeTable E} (hwell : table.WellFormed)
    (last freed : Nat) : (table.relocate last freed).WellFormed := by
  rw [relocate_eq]
  exact (wellFormed_foldl_relocateOne last freed _ table hwell).1.move last last freed freed

/-- No edge leaves the index or leads to it. -/
def Isolated (table : EdgeTable E) (index : Nat) : Prop :=
  ∀ other, other < table.side →
    table.edge? index other = none ∧ table.edge? other index = none

/-- Relocation renames the last index to an isolated one, and leaves no edge at the last
index, provided that the indices beyond it have none. -/
theorem edge?_relocate {table : EdgeTable E} (hwell : table.WellFormed)
    {last freed : Nat} (hlast : last < table.side) (hfreed : freed < last)
    (hisolated : table.Isolated freed)
    (hbeyond : ∀ index, last < index → index < table.side → table.Isolated index)
    {row column : Nat} (hrow : row < table.side) (hcolumn : column < table.side) :
    (table.relocate last freed).edge? row column =
      if row < last ∧ column < last then
        table.edge? (origin last freed row) (origin last freed column)
      else none := by
  have hothers : ∀ other, other ∈ (List.range last).filter (· ≠ freed) ↔
      other < last ∧ other ≠ freed := by
    intro other
    simp
  have hrounds := wellFormed_foldl_relocateOne last freed
    ((List.range last).filter (· ≠ freed)) table hwell
  have hedges := edge?_foldl_relocateOne ((List.range last).filter (· ≠ freed))
    (List.nodup_range.filter _) (by simp) (by simp) table hwell hlast
    (Nat.lt_trans hfreed hlast)
    (fun other hother => Nat.lt_trans ((hothers other).mp hother).1 hlast)
  rw [relocate_eq]
  generalize ((List.range last).filter (· ≠ freed)).foldl (relocateOne last freed) table =
    moved at hrounds hedges ⊢
  have hside : moved.side = table.side := congrArg UInt64.toNat hrounds.2
  rw [edge?_move hrounds.1 (by omega) (by omega) (by omega) (by omega) row
      (by omega : column < moved.side), hedges last last hlast,
    hedges row column hcolumn]
  simp only [shifted, hothers, origin]
  -- the two cells that join the last index with the freed one stay where they are
  have hfromFreed := (hisolated column hcolumn).1
  have hintoFreed := (hisolated row hrow).2
  have hrowBeyond := fun hbeyondRow => (hbeyond row hbeyondRow hrow column hcolumn).1
  have hcolumnBeyond := fun hbeyondColumn => (hbeyond column hbeyondColumn hcolumn row hrow).2
  rcases Nat.lt_trichotomy row last with hrowLast | hrowLast | hrowLast <;>
    rcases Nat.lt_trichotomy column last with hcolumnLast | hcolumnLast | hcolumnLast <;>
      grind

/-! ## Growth -/

theorem twice_eq_ok_iff {capacity larger : UInt64} :
    twice capacity = .ok larger ↔ larger.toNat = capacity.toNat * 2 := by
  have hproduct := @Word.checkedMul_eq_some_iff capacity 2 larger
  rw [show (2 : UInt64).toNat = 2 from rfl] at hproduct
  rw [← hproduct, twice]
  cases Word.checkedMul capacity 2 with
  | none => simp
  | some product => simp

/-- A table of twice the capacity is within the limits, and the memory for it is granted. -/
def CanGrow [ByteSize E] (memory : Memory) (table : EdgeTable E) : Prop :=
  ∃ larger, twice table.capacity = .ok larger ∧ reserve E memory larger = .ok ()

/-- The two outcomes of growing: a larger table, or the same table and no line in the log. -/
theorem grow_cases [ByteSize E] (memory : Memory) (table : EdgeTable E) (live : Nat) :
    (∃ larger, twice table.capacity = .ok larger ∧ reserve E memory larger = .ok () ∧
      table.grow memory live =
        ⟨table.enlarge larger live, .ok (), [.matrixGrown table.capacity larger]⟩) ∨
    (¬ table.CanGrow memory ∧ ∃ fault, table.grow memory live = .quiet table (.error fault)) := by
  rw [grow, CanGrow]
  cases htwice : twice table.capacity with
  | error fault => exact Or.inr ⟨by simp, fault, rfl⟩
  | ok larger =>
      dsimp only
      cases hreserve : reserve E memory larger with
      | error fault => exact Or.inr ⟨by simp [hreserve], fault, rfl⟩
      | ok granted => exact Or.inl ⟨larger, rfl, hreserve, rfl⟩

/-! ## The set of edges -/

/-- The cells that have an edge. -/
def edgeCells (table : EdgeTable E) : Finset (Nat × Nat) :=
  (Finset.range table.side ×ˢ Finset.range table.side).filter fun place =>
    (table.edge? place.1 place.2).isSome

omit [Inhabited E] in
theorem mem_edgeCells {table : EdgeTable E} {row column : Nat} :
    (row, column) ∈ table.edgeCells ↔
      (row < table.side ∧ column < table.side) ∧ (table.edge? row column).isSome := by
  simp [edgeCells]

@[simp]
theorem edgeCells_blank (capacity : UInt64) :
    (blank capacity : EdgeTable E).edgeCells = ∅ := by
  ext ⟨row, column⟩
  simp [mem_edgeCells]

theorem edgeCells_put {table : EdgeTable E} (hwell : table.WellFormed)
    {row column : Nat} (hrow : row < table.side) (hcolumn : column < table.side)
    (cost : E) :
    (table.put row column cost).edgeCells = insert (row, column) table.edgeCells := by
  have hside : (table.put row column cost).side = table.side := rfl
  ext ⟨otherRow, otherColumn⟩
  rw [Finset.mem_insert, mem_edgeCells, mem_edgeCells, hside, put_eq_write, Prod.mk.injEq]
  by_cases hother : otherColumn < table.side
  · rw [edge?_write hwell hrow hcolumn _ _ hother]
    by_cases hhere : otherRow = row ∧ otherColumn = column
    · simp [hhere, hrow, hcolumn]
    · simp [hhere]
  · simp only [hother, and_false, false_and, or_false, false_iff]
    omega

theorem edgeCells_erase {table : EdgeTable E} (hwell : table.WellFormed)
    {row column : Nat} (hrow : row < table.side) (hcolumn : column < table.side) :
    (table.erase row column).edgeCells = table.edgeCells.erase (row, column) := by
  have hside : (table.erase row column).side = table.side := rfl
  ext ⟨otherRow, otherColumn⟩
  rw [Finset.mem_erase, mem_edgeCells, mem_edgeCells, hside, erase_eq_write, Ne,
    Prod.mk.injEq]
  by_cases hother : otherColumn < table.side
  · rw [edge?_write hwell hrow hcolumn _ _ hother]
    by_cases hhere : otherRow = row ∧ otherColumn = column
    · simp [hhere]
    · simp [hhere]
  · simp [hother]

/-- Renaming the last index to an isolated one keeps the number of edges. -/
theorem card_edgeCells_relocate {table : EdgeTable E} (hwell : table.WellFormed)
    {last freed : Nat} (hlast : last < table.side) (hfreed : freed < last)
    (hisolated : table.Isolated freed)
    (hbeyond : ∀ index, last < index → index < table.side → table.Isolated index) :
    (table.relocate last freed).edgeCells.card = table.edgeCells.card := by
  have hside : (table.relocate last freed).side = table.side :=
    congrArg UInt64.toNat (capacity_relocate hwell last freed)
  have hedge {row column : Nat} (hrow : row < table.side) (hcolumn : column < table.side) :=
    edge?_relocate hwell hlast hfreed hisolated hbeyond hrow hcolumn
  let rename := Equiv.swap freed last
  have hrename : ∀ index, index < last → rename index = origin last freed index := by
    intro index hindex
    simp only [rename, Equiv.swap_apply_def, origin, if_neg (Nat.ne_of_lt hindex)]
  have hgone : ∀ index, last ≤ index → rename index < table.side →
      table.Isolated (rename index) := by
    intro index hindex hinside
    rcases Nat.eq_or_lt_of_le hindex with rfl | hlater
    · simpa only [rename, Equiv.swap_apply_right] using hisolated
    · have hsame : rename index = index :=
        Equiv.swap_apply_of_ne_of_ne (by omega) (by omega)
      rw [hsame] at hinside ⊢
      exact hbeyond index hlater hinside
  have hinside : ∀ index, rename index < table.side ↔ index < table.side := by
    intro index
    simp only [rename, Equiv.swap_apply_def]
    grind
  refine Finset.card_equiv (rename.prodCongr rename) ?_
  rintro ⟨row, column⟩
  rw [Equiv.prodCongr_apply, Prod.map_apply, mem_edgeCells, mem_edgeCells, hside, hinside,
    hinside]
  refine and_congr_right ?_
  rintro ⟨hrow, hcolumn⟩
  rw [hedge hrow hcolumn]
  split
  next hkept => rw [hrename row hkept.1, hrename column hkept.2]
  next hlost =>
    have hnone : table.edge? (rename row) (rename column) = none := by
      by_cases hrowKept : row < last
      · have hcolumnGone : last ≤ column := by omega
        exact (hgone column hcolumnGone ((hinside column).mpr hcolumn) _
          ((hinside row).mpr hrow)).2
      · exact (hgone row (Nat.le_of_not_lt hrowKept) ((hinside row).mpr hrow) _
          ((hinside column).mpr hcolumn)).1
    rw [hnone]

/-- Enlarging keeps the set of edges if they all lie among the indices that are kept. -/
theorem edgeCells_enlarge {table : EdgeTable E} (hwell : table.WellFormed)
    {larger : UInt64} {live : Nat} (hlive : live ≤ table.side)
    (hlarger : live ≤ larger.toNat)
    (hbeyond : ∀ index, live ≤ index → index < table.side → table.Isolated index) :
    (table.enlarge larger live).edgeCells = table.edgeCells := by
  have hside : (table.enlarge larger live).side = larger.toNat := rfl
  ext ⟨row, column⟩
  rw [mem_edgeCells, mem_edgeCells, hside]
  constructor
  · rintro ⟨⟨hrow, hcolumn⟩, hedge⟩
    rw [edge?_enlarge hwell hlive hlarger row hcolumn] at hedge
    split at hedge
    next hkept => exact ⟨⟨by omega, by omega⟩, hedge⟩
    next => simp at hedge
  · rintro ⟨⟨hrow, hcolumn⟩, hedge⟩
    have hkept : row < live ∧ column < live := by
      by_contra hlost
      have hnone : table.edge? row column = none := by
        by_cases hrowKept : row < live
        · exact (hbeyond column (by omega) hcolumn row hrow).2
        · exact (hbeyond row (by omega) hrow column hcolumn).1
      simp [hnone] at hedge
    rw [edge?_enlarge hwell hlive hlarger row (by omega), if_pos hkept]
    exact ⟨⟨by omega, by omega⟩, hedge⟩

/-! ## Counting in the presence table -/

theorem countP_range_eq_card (test : Nat → Bool) (count : Nat) :
    (List.range count).countP test = ((Finset.range count).filter (test ·)).card := by
  rw [List.countP_eq_length_filter, Finset.card_def, Finset.filter_val, Finset.range_val,
    Multiset.range, Multiset.filter_coe, Multiset.coe_card]
  simp

theorem count_true_eq_card (flags : Array Bool) :
    flags.count true =
      ((Finset.range flags.size).filter fun place => flags[place]? = some true).card := by
  have hread : flags.toList =
      (List.range flags.size).map fun place => flags[place]?.getD false := by
    apply List.ext_getElem
    · simp
    · intro place hplace _
      rw [Array.length_toList] at hplace
      simp [hplace]
  rw [← Array.count_toList, hread, List.count_eq_countP, List.countP_map,
    countP_range_eq_card]
  congr 1
  ext place
  simp only [Function.comp_apply, Finset.mem_filter, Finset.mem_range, beq_true,
    and_congr_right_iff]
  intro hplace
  simp [hplace]

omit [Inhabited E] in
theorem present_iff (table : EdgeTable E) (row column : Nat) :
    table.present row column = true ↔
      table.presence[table.cell row column]? = some true := by
  rw [present]
  cases table.presence[table.cell row column]? with
  | none => simp
  | some flag => simp

/-- The set of edges has one cell for each set flag of the presence table. -/
theorem card_edgeCells {table : EdgeTable E} (hwell : table.WellFormed) :
    table.edgeCells.card = table.presence.count true := by
  have hedge : ∀ row column, (table.edge? row column).isSome = true ↔
      table.presence[table.cell row column]? = some true := by
    intro row column
    rw [← present_eq_isSome hwell, present_iff]
  rw [count_true_eq_card, hwell.size_presence]
  refine Finset.card_nbij' (fun place => table.cell place.1 place.2)
    (fun place => (place / table.side, place % table.side)) ?_ ?_ ?_ ?_
  · rintro ⟨row, column⟩ hmem
    obtain ⟨⟨hrow, hcolumn⟩, hsome⟩ := mem_edgeCells.mp hmem
    rw [Finset.mem_coe, Finset.mem_filter, Finset.mem_range]
    exact ⟨place_lt hrow hcolumn, (hedge row column).mp hsome⟩
  · intro place hmem
    rw [Finset.mem_coe, Finset.mem_filter, Finset.mem_range] at hmem
    have hside : 0 < table.side := by
      by_contra hzero
      have hnone : table.side = 0 := by omega
      simp [hnone] at hmem
    have hback : table.cell (place / table.side) (place % table.side) = place := by
      rw [cell, Nat.mul_comm, Nat.div_add_mod]
    rw [Finset.mem_coe, mem_edgeCells]
    refine ⟨⟨Nat.div_lt_of_lt_mul hmem.1, Nat.mod_lt _ hside⟩, ?_⟩
    rw [hedge, hback]
    exact hmem.2
  · rintro ⟨row, column⟩ hmem
    obtain ⟨⟨-, hcolumn⟩, -⟩ := mem_edgeCells.mp hmem
    simp only [cell, place_div hcolumn, place_mod hcolumn]
  · intro place _
    simp only [cell]
    rw [Nat.mul_comm, Nat.div_add_mod]

end Cells

end EdgeTable

end Collections
