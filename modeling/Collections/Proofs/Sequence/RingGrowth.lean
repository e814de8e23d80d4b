import Mathlib
import Collections.Proofs.Doubling
import Collections.Proofs.Sequence.DequeRuns

/-!
# Growth of a ring

The number of slots of a deque tells how many elements it was asked to hold at first and how many
it held at most, and nothing else of its history.  Only a push onto a full ring changes it.
-/

namespace Collections

universe u

/-! ## Powers of two -/

open private Nat.nextPowerOfTwo.go from Init.Data.Nat.Power2.Basic in
theorem isLeast_nextPowerOfTwo_go {number power : Nat} {hpositive : 0 < power}
    (hpower : power.isPowerOfTwo)
    (hbelow : ∀ size, size.isPowerOfTwo → number ≤ size → power ≤ size) :
    IsLeast {size | size.isPowerOfTwo ∧ number ≤ size}
      (Nat.nextPowerOfTwo.go number power hpositive) := by
  fun_induction Nat.nextPowerOfTwo.go number power hpositive with
  | case1 power hpositive hsmall ih =>
      refine ih (Nat.isPowerOfTwo_mul_two_of_isPowerOfTwo hpower) ?_
      rintro size ⟨larger, rfl⟩ hnumber
      obtain ⟨exponent, rfl⟩ := hpower
      have hexponent : exponent < larger :=
        (Nat.pow_lt_pow_iff_right Nat.one_lt_two).mp (hsmall.trans_le hnumber)
      rw [← Nat.pow_succ]
      exact Nat.pow_le_pow_right Nat.two_pos hexponent
  | case2 power hpositive hlarge =>
      exact ⟨⟨hpower, Nat.le_of_not_lt hlarge⟩, fun size hsize => hbelow size hsize.1 hsize.2⟩

theorem isLeast_nextPowerOfTwo (number : Nat) :
    IsLeast {size | size.isPowerOfTwo ∧ number ≤ size} number.nextPowerOfTwo := by
  apply isLeast_nextPowerOfTwo_go Nat.isPowerOfTwo_one
  rintro size ⟨exponent, rfl⟩ -
  exact Nat.one_le_two_pow

/-- A power of two that is doubled for a peak is the greater one of itself and of the least power
of two that leaves room for the peak. -/
theorem Doubled.size_eq_max {line : Nat → LogEvent} {first peak count size largest : Nat}
    {log : List LogEvent} (hdoubled : Doubled line first peak count size log)
    (hfirst : first.isPowerOfTwo)
    (hlargest : IsLeast {size | size.isPowerOfTwo ∧ peak ≤ size} largest) :
    size = max first largest := by
  obtain ⟨exponent, rfl⟩ := hfirst
  obtain ⟨⟨⟨width, rfl⟩, hroom⟩, hleast⟩ := hlargest
  have hsize : size = 2 ^ (exponent + count) := by
    rw [hdoubled.size_eq, Nat.pow_add]
  apply Nat.le_antisymm
  · rcases Nat.le_total exponent width with hnarrow | hwide
    · obtain ⟨further, rfl⟩ := Nat.exists_eq_add_of_le hnarrow
      rw [Nat.pow_add] at hroom
      rw [hsize]
      refine Nat.le_trans ?_ (Nat.le_max_right _ _)
      exact Nat.pow_le_pow_right Nat.two_pos (Nat.add_le_add_left (hdoubled.least.2 hroom) _)
    · have hfits : peak ≤ 2 ^ exponent * 2 ^ 0 := by
        rw [Nat.pow_zero, Nat.mul_one]
        exact hroom.trans (Nat.pow_le_pow_right Nat.two_pos hwide)
      have hnone : count ≤ 0 := hdoubled.least.2 hfits
      rw [hsize, Nat.le_zero.mp hnone]
      exact Nat.le_max_left _ _
  · apply max_le
    · rw [hsize]
      exact Nat.pow_le_pow_right Nat.two_pos (Nat.le_add_right exponent count)
    · exact hleast ⟨⟨_, hsize⟩, hdoubled.peak_le⟩

namespace Deque

variable {α : Type u} {deque : Deque α} {items : List α}

/-! ## What one call does to the ring -/

/-- A call with what it logs. -/
def step (deque : Deque α) : DequeCall α → Step (Deque α) (DequeAnswer α)
  | .pushBack value => (deque.pushBack value).map fun _ => .done
  | .pushFront value => (deque.pushFront value).map fun _ => .done
  | .extend values => (deque.extend values).map fun _ => .done
  | call => .ofPair (deque.perform call)

theorem perform_eq_step (deque : Deque α) (call : DequeCall α) :
    deque.perform call = ((deque.step call).result, (deque.step call).state) := by
  cases call <;> rfl

/-- The line of a ring that is doubled tells the new number of slots. -/
def growthLine (slots : Nat) : LogEvent :=
  .dequeGrown (slots * 2)

theorem capacity_pushBack (deque : Deque α) (value : α) :
    (deque.pushBack value).state.capacity = deque.reserve.state.capacity :=
  Array.size_setIfInBounds

theorem capacity_pushFront (deque : Deque α) (value : α) :
    (deque.pushFront value).state.capacity = deque.reserve.state.capacity :=
  Array.size_setIfInBounds

theorem log_pushBack (deque : Deque α) (value : α) :
    (deque.pushBack value).log = deque.reserve.log :=
  List.append_nil _

theorem log_pushFront (deque : Deque α) (value : α) :
    (deque.pushFront value).log = deque.reserve.log :=
  List.append_nil _

theorem capacity_popFront (deque : Deque α) : deque.popFront.2.capacity = deque.capacity := by
  rw [popFront]
  split
  next => rfl
  next => exact Array.size_setIfInBounds

theorem capacity_popBack (deque : Deque α) : deque.popBack.2.capacity = deque.capacity := by
  rw [popBack]
  split
  next => rfl
  next => exact Array.size_setIfInBounds

theorem capacity_modify (deque : Deque α) (index : Nat) (change : α → α) :
    (deque.modify index change).2.capacity = deque.capacity := by
  rw [modify]
  split
  next =>
    dsimp only
    split
    next => exact Array.size_setIfInBounds
    next => rfl
  next => rfl

theorem Represents.capacity_clear (hrepresents : deque.Represents items) :
    deque.clear.capacity = deque.capacity := by
  have hcount : deque.length ≤ deque.capacity :=
    hrepresents.length_eq.trans_le hrepresents.length_le
  exact (hrepresents.vacate hcount).2.2.1

/-- A ring is doubled for one more element exactly when it is full. -/
theorem Represents.reserve_doubled (hrepresents : deque.Represents items) :
    ∃ count, Doubled growthLine deque.capacity (items.length + 1) count
      deque.reserve.state.capacity deque.reserve.log := by
  have hpositive := Nat.zero_lt_of_lt hrepresents.head_lt
  have hfits := hrepresents.length_le
  rw [Deque.reserve, hrepresents.length_eq]
  split
  next hfull =>
    refine ⟨1, ?_⟩
    rw [capacity_grow]
    exact Doubled.once hpositive (congrArg (· + 1) hfull)
  next hroom => exact ⟨0, Doubled.unchanged (Nat.lt_of_le_of_ne hfits hroom)⟩

theorem Represents.extend_doubled (values : List α) :
    ∀ {deque : Deque α} {items : List α}, deque.Represents items →
      ∃ count, Doubled growthLine deque.capacity (items.length + values.length) count
        (deque.extend values).state.capacity (deque.extend values).log := by
  induction values with
  | nil => exact fun hrepresents => ⟨0, Doubled.unchanged hrepresents.length_le⟩
  | cons value values ih =>
      intro deque items hrepresents
      obtain ⟨count, hfirst⟩ := hrepresents.reserve_doubled
      obtain ⟨more, hrest⟩ := ih (hrepresents.pushBack value)
      rw [capacity_pushBack, List.length_append, List.length_singleton] at hrest
      have hpeak : max (items.length + 1) (items.length + 1 + values.length) =
          items.length + (value :: values).length := by
        rw [List.length_cons, Nat.max_eq_right (Nat.le_add_right _ _)]
        omega
      have hboth := hfirst.trans hrest
      rw [hpeak, ← log_pushBack deque value] at hboth
      exact ⟨count + more, hboth⟩

/-- The ring after a call is the one before it, doubled as often as the elements need. -/
theorem Represents.step_doubled (hrepresents : deque.Represents items) (call : DequeCall α) :
    ∃ count, Doubled growthLine deque.capacity (deque.perform call).2.length count
      (deque.perform call).2.capacity (deque.step call).log := by
  have hafter := (hrepresents.perform call).2
  have hunchanged : (deque.perform call).2.capacity = deque.capacity →
      ∃ count, Doubled growthLine deque.capacity (deque.perform call).2.length count
        (deque.perform call).2.capacity [] := by
    intro hcapacity
    rw [hafter.length_eq, hcapacity]
    exact ⟨0, Doubled.unchanged (hafter.length_le.trans_eq hcapacity)⟩
  cases call with
  | pushBack value =>
      obtain ⟨count, hdoubled⟩ := hrepresents.reserve_doubled
      rw [hafter.length_eq, DequeCall.onSequence, List.length_append, List.length_singleton]
      change ∃ count, Doubled _ _ _ _ (deque.pushBack value).state.capacity
        (deque.pushBack value).log
      rw [capacity_pushBack, log_pushBack]
      exact ⟨count, hdoubled⟩
  | pushFront value =>
      obtain ⟨count, hdoubled⟩ := hrepresents.reserve_doubled
      rw [hafter.length_eq, DequeCall.onSequence, List.length_cons]
      change ∃ count, Doubled _ _ _ _ (deque.pushFront value).state.capacity
        (deque.pushFront value).log
      rw [capacity_pushFront, log_pushFront]
      exact ⟨count, hdoubled⟩
  | extend values =>
      rw [hafter.length_eq, DequeCall.onSequence, List.length_append]
      exact Represents.extend_doubled values hrepresents
  | popFront => exact hunchanged (capacity_popFront deque)
  | popBack => exact hunchanged (capacity_popBack deque)
  | modify index change => exact hunchanged (capacity_modify deque index change)
  | clear => exact hunchanged hrepresents.capacity_clear

/-- A push doubles a full ring and leaves any other as it is. -/
theorem pushed (deque : Deque α) (value : α) (push : DequeCall α)
    (hpush : push ∈ [.pushBack value, .pushFront value]) :
    (deque.perform push).2.capacity =
        (if deque.length = deque.capacity then deque.capacity * 2 else deque.capacity) ∧
      (deque.step push).log =
        if deque.length = deque.capacity then [growthLine deque.capacity] else [] := by
  have hreserved : deque.reserve.state.capacity =
        (if deque.length = deque.capacity then deque.capacity * 2 else deque.capacity) ∧
      deque.reserve.log =
        if deque.length = deque.capacity then [growthLine deque.capacity] else [] := by
    rw [reserve]
    split
    next => exact ⟨capacity_grow deque, rfl⟩
    next => exact ⟨rfl, rfl⟩
  rw [List.mem_pair] at hpush
  obtain rfl | rfl := hpush
  · exact ⟨(capacity_pushBack deque value).trans hreserved.1,
      (log_pushBack deque value).trans hreserved.2⟩
  · exact ⟨(capacity_pushFront deque value).trans hreserved.1,
      (log_pushFront deque value).trans hreserved.2⟩

/-! ## Runs -/

/-- The ring of a deque that was made for a requested number of elements and held at most `peak`
ones, with all that it logged. -/
structure FollowsPeak (requested peak : Nat) (deque : Deque α) (log : List LogEvent) : Prop where
  sized : ∃ first largest,
    IsLeast {size | size.isPowerOfTwo ∧ max requested 1 ≤ size} first ∧
      IsLeast {size | size.isPowerOfTwo ∧ peak ≤ size} largest ∧
        deque.capacity = max first largest ∧
          ∃ count, deque.capacity = first * 2 ^ count ∧
            log = doublingLines growthLine first count
  kept : ∀ call ∈ [DequeCall.popFront, .popBack, .clear],
    (deque.perform call).2.capacity = deque.capacity ∧ (deque.step call).log = []
  grows_iff : ∀ value, ∀ push ∈ [DequeCall.pushBack value, .pushFront value],
    deque.capacity < (deque.perform push).2.capacity ↔ deque.length = deque.capacity
  pushed : ∀ value, ∀ push ∈ [DequeCall.pushBack value, .pushFront value],
    (deque.perform push).2.capacity =
        (if deque.length = deque.capacity then deque.capacity * 2 else deque.capacity) ∧
      (deque.step push).log =
        if deque.length = deque.capacity then [growthLine deque.capacity] else []

theorem Represents.followsPeak (hrepresents : deque.Represents items) {requested peak count : Nat}
    {log : List LogEvent}
    (hdoubled : Doubled growthLine (max requested 1).nextPowerOfTwo peak count deque.capacity
      log) :
    FollowsPeak requested peak deque log where
  sized := by
    have hfirst := isLeast_nextPowerOfTwo (max requested 1)
    have hlargest := isLeast_nextPowerOfTwo peak
    refine ⟨_, _, hfirst, hlargest, ?_, count, hdoubled.size_eq, hdoubled.log_eq⟩
    exact hdoubled.size_eq_max hfirst.1.1 hlargest
  kept := by
    intro call hcall
    simp only [List.mem_cons, List.not_mem_nil, or_false] at hcall
    obtain rfl | rfl | rfl := hcall
    · exact ⟨capacity_popFront deque, rfl⟩
    · exact ⟨capacity_popBack deque, rfl⟩
    · exact ⟨hrepresents.capacity_clear, rfl⟩
  grows_iff := by
    intro value push hpush
    have hpositive := Nat.zero_lt_of_lt hrepresents.head_lt
    rw [(deque.pushed value push hpush).1]
    split
    next hfull => exact iff_of_true (by omega) hfull
    next hroom => exact iff_of_false (Nat.lt_irrefl _) hroom
  pushed := deque.pushed

/-- The number of slots of a deque is told by the number of elements that it was asked to hold at
first and the greatest number that it held on the way; its log tells of the doublings from the
one to the other. -/
theorem withCapacity_run_follows_peak (requested : Nat) (calls : List (DequeCall α)) :
    ∃ peak, IsGreatest (Calls.values perform length (withCapacity requested) calls) peak ∧
      FollowsPeak requested peak (Calls.run perform (withCapacity requested) calls).2
        (Step.forEach step (withCapacity requested) calls).log := by
  have hstart : (withCapacity requested : Deque α).Represents [] :=
    represents_withCapacity requested
  have hcapacity : (withCapacity requested : Deque α).capacity =
      (max requested 1).nextPowerOfTwo :=
    Array.size_replicate
  obtain ⟨peak, count, hgreatest, hdoubled⟩ := Calls.exists_doubled growthLine length capacity
    (fun deque => ∃ items, deque.Represents items) perform_eq_step ⟨[], hstart⟩ (Nat.zero_le _)
    (fun _ call ⟨_, hrepresents⟩ => ⟨_, (hrepresents.perform call).2⟩)
    (fun _ call ⟨_, hrepresents⟩ => hrepresents.step_doubled call) calls
  rw [hcapacity] at hdoubled
  exact ⟨peak, hgreatest, (hstart.run calls).2.followsPeak hdoubled⟩

end Deque

end Collections
