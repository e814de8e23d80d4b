import Mathlib
import Collections.Proofs.Trace

/-!
# Sizes that are doubled

A collection that doubles its size whenever what it has to hold does not fit any more, and never
makes it smaller, has the first size times the least power of two that leaves room for the most
it ever held.  Its log tells of each doubling, in order.
-/

namespace Collections

universe u w x

/-- The lines of the doublings of a size, from the first one on. -/
def doublingLines (line : Nat → LogEvent) (first count : Nat) : List LogEvent :=
  (List.range count).map fun exponent => line (first * 2 ^ exponent)

/-- A size was doubled as often as it takes to leave room for the peak, and each time was logged
with the size before it. -/
structure Doubled (line : Nat → LogEvent) (first peak count size : Nat) (log : List LogEvent) :
    Prop where
  size_eq : size = first * 2 ^ count
  least : IsLeast {exponent | peak ≤ first * 2 ^ exponent} count
  log_eq : log = doublingLines line first count

namespace Doubled

variable {line : Nat → LogEvent} {first peak count size : Nat} {log : List LogEvent}

theorem unchanged (hfits : peak ≤ size) : Doubled line size peak 0 size [] where
  size_eq := (Nat.mul_one size).symm
  least := ⟨hfits.trans_eq (Nat.mul_one size).symm, fun exponent _ => Nat.zero_le exponent⟩
  log_eq := rfl

/-- One more than what fits is room enough only in twice the size. -/
theorem once (hpositive : 0 < size) (hpeak : peak = size + 1) :
    Doubled line size peak 1 (size * 2) [line size] where
  size_eq := congrArg (size * ·) (Nat.pow_one 2).symm
  least := by
    constructor
    · change peak ≤ size * 2 ^ 1
      omega
    · intro exponent hexponent
      change peak ≤ size * 2 ^ exponent at hexponent
      cases exponent with
      | zero =>
          rw [Nat.pow_zero] at hexponent
          omega
      | succ exponent => exact Nat.le_add_left 1 exponent
  log_eq := congrArg (fun before => [line before]) (Nat.mul_one size).symm

theorem peak_le (hdoubled : Doubled line first peak count size log) : peak ≤ size :=
  hdoubled.least.1.trans_eq hdoubled.size_eq.symm

/-- Doublings that follow on others count from where those ended. -/
theorem trans {value more after : Nat} {rest : List LogEvent}
    (hbefore : Doubled line first peak count size log)
    (hafter : Doubled line size value more after rest) :
    Doubled line first (max peak value) (count + more) after (log ++ rest) := by
  have hsize : ∀ exponent, size * 2 ^ exponent = first * 2 ^ (count + exponent) := by
    intro exponent
    rw [hbefore.size_eq, Nat.pow_add, Nat.mul_assoc]
  refine ⟨hafter.size_eq.trans (hsize more), ⟨?_, ?_⟩, ?_⟩
  · have hlarger : first * 2 ^ count ≤ first * 2 ^ (count + more) :=
      Nat.mul_le_mul_left first (Nat.pow_le_pow_right Nat.two_pos (Nat.le_add_right count more))
    exact max_le (hbefore.least.1.trans hlarger) (hafter.least.1.trans_eq (hsize more))
  · intro exponent hexponent
    change max peak value ≤ first * 2 ^ exponent at hexponent
    obtain ⟨hpeak, hvalue⟩ := max_le_iff.mp hexponent
    obtain ⟨further, rfl⟩ := Nat.exists_eq_add_of_le (hbefore.least.2 hpeak)
    rw [← hsize] at hvalue
    exact Nat.add_le_add_left (hafter.least.2 hvalue) count
  · rw [hbefore.log_eq, hafter.log_eq, doublingLines, doublingLines, doublingLines,
      List.range_add, List.map_append, List.map_map]
    refine congrArg _ (List.map_congr_left fun exponent _ => ?_)
    exact congrArg line (hsize exponent)

end Doubled

namespace Calls

variable {σ : Type u} {κ : Type w} {α : Type x}

/-- If each call doubles the size as often as what it leaves needs room, then the size after a
run is told by the greatest value on the way, and the log by the doublings. -/
theorem exists_doubled (line : Nat → LogEvent) (measure size : σ → Nat) (invariant : σ → Prop)
    {operation : σ → κ → Step σ α} {perform : σ → κ → α × σ}
    (hperform : ∀ state call,
      perform state call = ((operation state call).result, (operation state call).state))
    {start : σ} (hinvariant : invariant start) (hfits : measure start ≤ size start)
    (hkept : ∀ state call, invariant state → invariant (perform state call).2)
    (hstep : ∀ state call, invariant state → ∃ count,
      Doubled line (size state) (measure (perform state call).2) count
        (size (perform state call).2) (operation state call).log)
    (calls : List κ) :
    ∃ peak count, IsGreatest (values perform measure start calls) peak ∧
      Doubled line (size start) peak count (size (run perform start calls).2)
        (Step.forEach operation start calls).log := by
  -- A call is added at the end, where the doublings so far and those of the call meet.
  induction calls using List.reverseRecOn with
  | nil =>
      refine ⟨measure start, 0, ?_, Doubled.unchanged hfits⟩
      rw [values, valuesSince_nil]
      exact isGreatest_singleton
  | append_singleton calls call ih =>
      obtain ⟨peak, count, hgreatest, hdoubled⟩ := ih
      obtain ⟨more, hmore⟩ := hstep _ call (run_invariant hkept calls hinvariant)
      rw [values, valuesSince_concat_of_not_renews not_false, run_concat,
        log_forEach_concat hperform, ← values]
      exact ⟨_, count + more, max_comm peak _ ▸ hgreatest.insert _, hdoubled.trans hmore⟩

end Calls

end Collections
