import Mathlib
import Collections.Proofs.Run

/-!
# What a run goes through

A run is told by more than its answers and its last state: by the states in which its calls
are made, by what it logs, and by the values that a measure of its states had on the way.  A
run that is continued by one call goes through what it went through before and one state more,
so what is said of a run is proved by adding calls at its end.
-/

namespace Collections

universe u v w x y

namespace Calls

variable {σ : Type u} {τ : Type v} {κ : Type w} {α : Type x}

/-- What each call preserves, a run preserves. -/
theorem run_invariant {perform : σ → κ → α × σ} {invariant : σ → Prop}
    (hkept : ∀ state call, invariant state → invariant (perform state call).2)
    (calls : List κ) {state : σ} (hstate : invariant state) :
    invariant (run perform state calls).2 :=
  (Reachable.run calls (.start hstate)).invariant (fun _ hinitial => hinitial) hkept

section Continued

variable (perform : σ → κ → α × σ) (state : σ) (calls : List κ) (call : κ)

theorem run_concat : (run perform state (calls ++ [call])).2 =
    (perform (run perform state calls).2 call).2 :=
  congrArg Prod.snd (run_append perform state calls [call])

/-- The calls of a run in turn, each with the state in which it is made and with its answer. -/
def trace (perform : σ → κ → α × σ) : σ → List κ → List (σ × κ × α)
  | _, [] => []
  | state, call :: calls =>
    let step := perform state call
    (state, call, step.1) :: trace perform step.2 calls

theorem trace_concat : trace perform state (calls ++ [call]) =
    trace perform state calls ++ [((run perform state calls).2, call,
      (perform (run perform state calls).2 call).1)] := by
  induction calls generalizing state with
  | nil => rfl
  | cons first calls ih => exact congrArg (List.cons _) (ih _)

end Continued

/-! ## The log -/

section Log

variable {operation : σ → κ → Step σ α}

theorem log_forEach_concat {perform : σ → κ → α × σ}
    (hperform : ∀ state call,
      perform state call = ((operation state call).result, (operation state call).state))
    (state : σ) (calls : List κ) (call : κ) :
    (Step.forEach operation state (calls ++ [call])).log =
      (Step.forEach operation state calls).log ++
        (operation (run perform state calls).2 call).log := by
  induction calls generalizing state with
  | nil =>
      change (operation state call).log ++ [] = [] ++ (operation state call).log
      rw [List.append_nil, List.nil_append]
  | cons first calls ih =>
      have hnext : (perform state first).2 = (operation state first).state :=
        congrArg Prod.snd (hperform state first)
      change (operation state first).log ++ (Step.forEach operation _ (calls ++ [call])).log =
        ((operation state first).log ++ (Step.forEach operation _ calls).log) ++
          (operation (run perform (perform state first).2 calls).2 call).log
      rw [ih, hnext, List.append_assoc]

/-- Two collections whose steps answer and log alike, and which stay related, answer and log
alike in a run. -/
theorem forEach_agrees {reference : τ → κ → Step τ α} {related : σ → τ → Prop}
    (hstep : ∀ state model call, related state model →
      (operation state call).result = (reference model call).result ∧
        (operation state call).log = (reference model call).log ∧
          related (operation state call).state (reference model call).state)
    (calls : List κ) : ∀ {state : σ} {model : τ}, related state model →
      (Step.forEach operation state calls).result = (Step.forEach reference model calls).result ∧
        (Step.forEach operation state calls).log = (Step.forEach reference model calls).log ∧
          related (Step.forEach operation state calls).state
            (Step.forEach reference model calls).state := by
  induction calls with
  | nil => exact fun hrelated => ⟨rfl, rfl, hrelated⟩
  | cons call calls ih =>
      intro state model hrelated
      obtain ⟨hresult, hlog, hnext⟩ := hstep state model call hrelated
      obtain ⟨hresults, hlogs, hfinal⟩ := ih hnext
      exact ⟨congrArg₂ List.cons hresult hresults, congrArg₂ List.append hlog hlogs, hfinal⟩

end Log

/-! ## Values on the way -/

/-- The values that a measure of the states of a run had since its start, or since the last
call that begins anew. -/
def valuesSince (perform : σ → κ → α × σ) (measure : σ → Nat) (renews : κ → Prop) (state : σ)
    (calls : List κ) : Set Nat :=
  {value | ∃ earlier later, calls = earlier ++ later ∧ (∀ call ∈ later, ¬ renews call) ∧
    value = measure (run perform state earlier).2}

/-- The values that a measure of the states of a run had since its start. -/
abbrev values (perform : σ → κ → α × σ) (measure : σ → Nat) (state : σ) (calls : List κ) :
    Set Nat :=
  valuesSince perform measure (fun _ => False) state calls

section Values

variable {perform : σ → κ → α × σ} {measure : σ → Nat} {renews : κ → Prop} {state : σ}

theorem valuesSince_nil : valuesSince perform measure renews state [] = {measure state} := by
  ext value
  constructor
  · rintro ⟨earlier, later, hcalls, -, rfl⟩
    rw [(List.append_eq_nil_iff.mp hcalls.symm).1]
    rfl
  · rintro rfl
    exact ⟨[], [], rfl, fun _ hcall => absurd hcall List.not_mem_nil, rfl⟩

/-- A call adds the value that it leaves, and one that begins anew drops all earlier ones. -/
theorem mem_valuesSince_concat {calls : List κ} {call : κ} {value : Nat} :
    value ∈ valuesSince perform measure renews state (calls ++ [call]) ↔
      value = measure (run perform state (calls ++ [call])).2 ∨
        ¬ renews call ∧ value ∈ valuesSince perform measure renews state calls := by
  constructor
  · rintro ⟨earlier, later, hcalls, hkept, rfl⟩
    cases later using List.reverseRecOn with
    | nil =>
        rw [List.append_nil] at hcalls
        exact Or.inl (hcalls ▸ rfl)
    | append_singleton later last =>
        rw [← List.append_assoc] at hcalls
        obtain ⟨rfl, hlast⟩ := List.append_inj' hcalls rfl
        obtain rfl : call = last := List.singleton_inj.mp hlast
        rw [List.forall_mem_append, List.forall_mem_singleton] at hkept
        exact Or.inr ⟨hkept.2, earlier, later, rfl, hkept.1, rfl⟩
  · rintro (rfl | ⟨hcall, earlier, later, rfl, hkept, rfl⟩)
    · exact ⟨calls ++ [call], [], (List.append_nil _).symm,
        fun _ hcall => absurd hcall List.not_mem_nil, rfl⟩
    · refine ⟨earlier, later ++ [call], List.append_assoc _ _ _, ?_, rfl⟩
      rw [List.forall_mem_append, List.forall_mem_singleton]
      exact ⟨hkept, hcall⟩

theorem valuesSince_concat_of_renews {calls : List κ} {call : κ} (hcall : renews call) :
    valuesSince perform measure renews state (calls ++ [call]) =
      {measure (run perform state (calls ++ [call])).2} := by
  ext value
  rw [mem_valuesSince_concat, Set.mem_singleton_iff,
    or_iff_left fun hboth => hboth.1 hcall]

theorem valuesSince_concat_of_not_renews {calls : List κ} {call : κ} (hcall : ¬ renews call) :
    valuesSince perform measure renews state (calls ++ [call]) =
      insert (measure (run perform state (calls ++ [call])).2)
        (valuesSince perform measure renews state calls) := by
  ext value
  rw [mem_valuesSince_concat, Set.mem_insert_iff, and_iff_right hcall]

/-- A size that grows only to make room for what is measured, and that starts anew with it, is
the greatest value that was measured. -/
theorem isGreatest_valuesSince (size : σ → Nat) (invariant : σ → Prop)
    (hinvariant : invariant state) (hstart : size state = measure state)
    (hkept : ∀ state call, invariant state → invariant (perform state call).2)
    (hrenews : ∀ state call, renews call →
      size (perform state call).2 = measure (perform state call).2)
    (hstep : ∀ state call, invariant state → ¬ renews call →
      size (perform state call).2 = max (size state) (measure (perform state call).2))
    (calls : List κ) :
    IsGreatest (valuesSince perform measure renews state calls)
      (size (run perform state calls).2) := by
  -- A call is added at the end, since the values of the earlier ones are kept or dropped by it.
  induction calls using List.reverseRecOn with
  | nil =>
      rw [valuesSince_nil]
      exact hstart ▸ isGreatest_singleton
  | append_singleton calls call ih =>
      by_cases hcall : renews call
      · rw [valuesSince_concat_of_renews hcall, run_concat, hrenews _ call hcall]
        exact isGreatest_singleton
      · have hbefore := run_invariant hkept calls hinvariant
        rw [valuesSince_concat_of_not_renews hcall, run_concat, hstep _ call hbefore hcall,
          max_comm]
        exact ih.insert _

end Values

end Calls

end Collections
