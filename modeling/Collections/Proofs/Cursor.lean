import Mathlib.Data.List.Induction
import Collections.Cursor

/-!
# What cursors yield

The calls of a cursor that walks over a list yield its items in order, then nothing,
and tell after each call how many items are still to come.  Where a cursor can be called
from both ends, each call yields the item at its end of what is left.
-/

namespace Collections

universe u v

namespace Cursor

variable {κ : Type u} {α : Type v}

/-- What a number of calls yields if these items are still to come. -/
def visits : List α → Nat → List (Option α × Nat)
  | _, 0 => []
  | [], count + 1 => (none, 0) :: visits [] count
  | item :: items, count + 1 => (some item, items.length) :: visits items count

/-- A relation between cursors and the items still to come that each call respects. -/
structure Yields [Cursor κ α] (shows : κ → List α → Prop) : Prop where
  next_nil : ∀ cursor, shows cursor [] → (next cursor).1 = none ∧ shows (next cursor).2 []
  next_cons : ∀ cursor item items, shows cursor (item :: items) →
    (next cursor).1 = some item ∧ shows (next cursor).2 items
  remaining_eq : ∀ cursor items, shows cursor items → remaining cursor = items.length

theorem Yields.calls_eq_visits [Cursor κ α] {shows : κ → List α → Prop}
    (hyields : Yields shows) (count : Nat) :
    ∀ {cursor : κ} {items : List α}, shows cursor items →
      calls count cursor = visits items count := by
  induction count with
  | zero => exact fun _ => by rw [calls, visits]
  | succ count ih =>
      intro cursor items hshows
      cases items with
      | nil =>
          obtain ⟨hitem, hrest⟩ := hyields.next_nil cursor hshows
          rw [calls, visits]
          dsimp only
          rw [hitem, ih hrest, hyields.remaining_eq _ _ hrest, List.length_nil]
      | cons item items =>
          obtain ⟨hitem, hrest⟩ := hyields.next_cons cursor item items hshows
          rw [calls, visits]
          dsimp only
          rw [hitem, ih hrest, hyields.remaining_eq _ _ hrest]

/-- The items that a number of calls yields. -/
def yielded [Cursor κ α] (count : Nat) (cursor : κ) : List α :=
  (calls count cursor).filterMap Prod.fst

theorem filterMap_visits (count : Nat) :
    ∀ items : List α, (visits items count).filterMap Prod.fst = items.take count := by
  induction count with
  | zero => exact fun items => by rw [visits, List.filterMap_nil, List.take_zero]
  | succ count ih =>
      intro items
      cases items with
      | nil =>
          rw [visits, List.filterMap_cons]
          exact (ih []).trans (List.take_nil.trans List.take_nil.symm)
      | cons item items =>
          rw [visits, List.filterMap_cons, List.take_succ_cons, ← ih]

/-- A cursor after a number of calls. -/
def after [Cursor κ α] (cursor : κ) : Nat → κ
  | 0 => cursor
  | count + 1 => (next (after cursor count)).2

theorem Yields.shows_after [Cursor κ α] {shows : κ → List α → Prop} (hyields : Yields shows)
    {cursor : κ} {items : List α} (hshows : shows cursor items) (count : Nat) :
    shows (after cursor count) (items.drop count) := by
  induction count with
  | zero => exact hshows
  | succ count ih =>
      rw [after, ← List.tail_drop]
      cases hitems : items.drop count with
      | nil =>
          rw [hitems] at ih
          exact (hyields.next_nil _ ih).2
      | cons item rest =>
          rw [hitems] at ih
          exact (hyields.next_cons _ item rest ih).2

/-- Before each call the cursor tells how many items are still to come, and the call yields
the item whose turn it is. -/
theorem Yields.remaining_after [Cursor κ α] {shows : κ → List α → Prop}
    (hyields : Yields shows) {cursor : κ} {items : List α} (hshows : shows cursor items)
    (count : Nat) :
    remaining (after cursor count) = items.length - count ∧
      (next (after cursor count)).1 = items[count]? := by
  have hrest := hyields.shows_after hshows count
  constructor
  · rw [hyields.remaining_eq _ _ hrest, List.length_drop]
  · rw [← List.head?_drop]
    cases hitems : items.drop count with
    | nil =>
        rw [hitems] at hrest
        exact (hyields.next_nil _ hrest).1
    | cons item rest =>
        rw [hitems] at hrest
        exact (hyields.next_cons _ item rest hrest).1

end Cursor

namespace DoubleEndedCursor

variable {κ : Type u} {α : Type v}

/-- The item at an end of a list, and the list without it. -/
def takeEnd : SequenceEnd → List α → Option α × List α
  | .front, items => (items.head?, items.tail)
  | .back, items => (items.getLast?, items.dropLast)

/-- What calls from either end yield if these items are still to come. -/
def visits : List α → List SequenceEnd → List (Option α × Nat)
  | _, [] => []
  | items, side :: pattern =>
    ((takeEnd side items).1, (takeEnd side items).2.length) ::
      visits (takeEnd side items).2 pattern

theorem visits_replicate_front (items : List α) (count : Nat) :
    visits items (List.replicate count .front) = Cursor.visits items count := by
  induction count generalizing items with
  | zero => cases items <;> rfl
  | succ count ih =>
      rw [List.replicate_succ, visits, ih]
      cases items <;> rfl

/-- Calls from the back meet the items in reverse. -/
theorem visits_replicate_back (items : List α) (count : Nat) :
    visits items (List.replicate count .back) = Cursor.visits items.reverse count := by
  induction count generalizing items with
  | zero => cases items.reverse <;> rfl
  | succ count ih =>
      rw [List.replicate_succ, visits, ih]
      cases items using List.reverseRecOn with
      | nil => rfl
      | append_singleton items item => simp [takeEnd, Cursor.visits]

/-- A relation between cursors and the items still to come that each call respects. -/
structure Yields [DoubleEndedCursor κ α] (shows : κ → List α → Prop) : Prop where
  take_eq : ∀ side cursor items, shows cursor items →
    (take side cursor).1 = (takeEnd side items).1 ∧
      shows (take side cursor).2 (takeEnd side items).2
  remaining_eq : ∀ cursor items, shows cursor items → Cursor.remaining cursor = items.length

theorem Yields.calls_eq_visits [DoubleEndedCursor κ α] {shows : κ → List α → Prop}
    (hyields : Yields shows) (pattern : List SequenceEnd) :
    ∀ {cursor : κ} {items : List α}, shows cursor items →
      calls pattern cursor = visits items pattern := by
  induction pattern with
  | nil => exact fun _ => rfl
  | cons side pattern ih =>
      intro cursor items hshows
      obtain ⟨hitem, hrest⟩ := hyields.take_eq side cursor items hshows
      rw [calls, visits]
      dsimp only
      rw [hitem, ih hrest, hyields.remaining_eq _ _ hrest]

/-- Calls from the front alone are the calls of the cursor. -/
theorem calls_replicate_front [DoubleEndedCursor κ α] (count : Nat) :
    ∀ cursor : κ, calls (List.replicate count .front) cursor = Cursor.calls count cursor := by
  induction count with
  | zero => exact fun cursor => rfl
  | succ count ih =>
      intro cursor
      rw [List.replicate_succ, calls, Cursor.calls]
      dsimp only
      rw [ih]
      rfl

/-- A cursor after the calls of a pattern. -/
def after [DoubleEndedCursor κ α] (cursor : κ) : List SequenceEnd → κ
  | [] => cursor
  | side :: pattern => after (take side cursor).2 pattern

/-- The items that the calls at one of the ends yield, in the order of the calls. -/
def takenFrom [DoubleEndedCursor κ α] (side : SequenceEnd) (pattern : List SequenceEnd)
    (cursor : κ) : List α :=
  (pattern.zip (calls pattern cursor)).filterMap fun (caller, item, _) =>
    if caller = side then item else none

/-- Calls from both ends share out the items of a list, whatever their pattern is. -/
structure SharesOut [DoubleEndedCursor κ α] (cursor : κ) (items : List α) : Prop where
  /-- The items taken from the front, those that are left and those taken from the back, the last
  one first, make up the list.  The next call takes the item at its end of those that are left. -/
  parts : ∀ pattern, ∃ left,
    items = takenFrom .front pattern cursor ++ left ++ (takenFrom .back pattern cursor).reverse ∧
      Cursor.remaining (after cursor pattern) = left.length ∧
        ∀ side, (take side (after cursor pattern)).1 = (takeEnd side left).1
  remaining_add : ∀ pattern, Cursor.remaining (after cursor pattern) +
    ((takenFrom .front pattern cursor).length + (takenFrom .back pattern cursor).length) =
      items.length
  isSome_iff : ∀ pattern side, (take side (after cursor pattern)).1.isSome ↔
    0 < Cursor.remaining (after cursor pattern)
  /-- Once no item is left, no call from either end ever yields one. -/
  finished : ∀ pattern, Cursor.remaining (after cursor pattern) = 0 →
    ∀ further, calls further (after cursor pattern) = List.replicate further.length (none, 0)

theorem takenFrom_cons [DoubleEndedCursor κ α] (side caller : SequenceEnd)
    (pattern : List SequenceEnd) (cursor : κ) :
    takenFrom side (caller :: pattern) cursor =
      (if caller = side then (take caller cursor).1 else none).toList ++
        takenFrom side pattern (take caller cursor).2 := by
  rw [takenFrom, calls, List.zip_cons_cons, List.filterMap_cons]
  dsimp only
  split
  next hnone =>
    rw [hnone]
    rfl
  next item hsome =>
    rw [hsome]
    rfl

theorem visits_nil (pattern : List SequenceEnd) :
    visits ([] : List α) pattern = List.replicate pattern.length (none, 0) := by
  induction pattern with
  | nil => rfl
  | cons side pattern ih =>
      rw [List.length_cons, List.replicate_succ, ← ih]
      cases side <;> rfl

theorem eq_append_takeEnd (items : List α) :
    items = (takeEnd .front items).1.toList ++ (takeEnd .front items).2 := by
  cases items <;> rfl

theorem eq_takeEnd_append (items : List α) :
    items = (takeEnd .back items).2 ++ (takeEnd .back items).1.toList := by
  cases items using List.reverseRecOn with
  | nil => rfl
  | append_singleton items item => simp [takeEnd]

/-- What was taken from the ends of a list lies around what is left of it. -/
theorem Yields.exists_left [DoubleEndedCursor κ α] {shows : κ → List α → Prop}
    (hyields : Yields shows) (pattern : List SequenceEnd) :
    ∀ {cursor : κ} {items : List α}, shows cursor items → ∃ left,
      items = takenFrom .front pattern cursor ++ left ++
          (takenFrom .back pattern cursor).reverse ∧
        shows (after cursor pattern) left := by
  induction pattern with
  | nil => exact fun hshows => ⟨_, (List.append_nil _).symm, hshows⟩
  | cons side pattern ih =>
      intro cursor items hshows
      obtain ⟨hitem, hrest⟩ := hyields.take_eq side cursor items hshows
      obtain ⟨left, hparts, hleft⟩ := ih hrest
      refine ⟨left, ?_, hleft⟩
      rw [takenFrom_cons, takenFrom_cons, hitem]
      cases side with
      | front =>
          calc
            items = (takeEnd .front items).1.toList ++ (takeEnd .front items).2 :=
              eq_append_takeEnd items
            _ = _ := by
              rw [hparts]
              simp
      | back =>
          calc
            items = (takeEnd .back items).2 ++ (takeEnd .back items).1.toList :=
              eq_takeEnd_append items
            _ = _ := by
              rw [hparts]
              cases (takeEnd .back items).1 <;> simp

theorem Yields.sharesOut [DoubleEndedCursor κ α] {shows : κ → List α → Prop}
    (hyields : Yields shows) {cursor : κ} {items : List α} (hshows : shows cursor items) :
    SharesOut cursor items where
  parts := by
    intro pattern
    obtain ⟨left, hparts, hleft⟩ := hyields.exists_left pattern hshows
    exact ⟨left, hparts, hyields.remaining_eq _ _ hleft,
      fun side => (hyields.take_eq side _ _ hleft).1⟩
  remaining_add := by
    intro pattern
    obtain ⟨left, hparts, hleft⟩ := hyields.exists_left pattern hshows
    rw [hyields.remaining_eq _ _ hleft, hparts, List.length_append, List.length_append,
      List.length_reverse]
    omega
  isSome_iff := by
    intro pattern side
    obtain ⟨left, -, hleft⟩ := hyields.exists_left pattern hshows
    rw [hyields.remaining_eq _ _ hleft, (hyields.take_eq side _ _ hleft).1,
      List.length_pos_iff]
    cases side <;> simp [takeEnd]
  finished := by
    intro pattern hfinished further
    obtain ⟨left, -, hleft⟩ := hyields.exists_left pattern hshows
    rw [hyields.remaining_eq _ _ hleft, List.length_eq_zero_iff] at hfinished
    rw [hyields.calls_eq_visits further hleft, hfinished, visits_nil]

end DoubleEndedCursor

end Collections
