import Mathlib.Data.List.Forall2
import Collections.Step

/-!
# Runs of calls

A collection answers one call after the other, and each call leaves a new state.
What one call preserves, a run preserves; and if one call keeps two collections in
step, so that their answers match, then a run does.
-/

namespace Collections

universe u v w x y

namespace Calls

variable {σ : Type u} {τ : Type v} {κ : Type w} {α : Type x} {β : Type y}

/-- The answers to a list of calls, in order, and the state after the last one. -/
def run (perform : σ → κ → α × σ) : σ → List κ → List α × σ
  | state, [] => ([], state)
  | state, call :: calls =>
    let step := perform state call
    let rest := run perform step.2 calls
    (step.1 :: rest.1, rest.2)

/-- A condition on a call holds in the state in which each call of a run is made. -/
def Throughout (perform : σ → κ → α × σ) (condition : σ → κ → Prop) : σ → List κ → Prop
  | _, [] => True
  | state, call :: calls =>
    condition state call ∧ Throughout perform condition (perform state call).2 calls

theorem throughout_of_forall_mem {perform : σ → κ → α × σ} {condition : σ → κ → Prop}
    (calls : List κ) (hcondition : ∀ state, ∀ call ∈ calls, condition state call) :
    ∀ state, Throughout perform condition state calls := by
  induction calls with
  | nil => exact fun state => trivial
  | cons call calls ih =>
      intro state
      refine ⟨hcondition state call List.mem_cons_self, ih ?_ _⟩
      exact fun state other hother => hcondition state other (List.mem_cons_of_mem call hother)

theorem throughout_of_forall {perform : σ → κ → α × σ} {condition : σ → κ → Prop}
    (hcondition : ∀ state call, condition state call) (calls : List κ) :
    ∀ state, Throughout perform condition state calls :=
  throughout_of_forall_mem calls fun state call _ => hcondition state call

/-- The states that calls lead to from an initial one. -/
inductive Reachable (initial : σ → Prop) (perform : σ → κ → α × σ) : σ → Prop
  | start {state : σ} (hinitial : initial state) : Reachable initial perform state
  | step {state : σ} (hreached : Reachable initial perform state) (call : κ) :
      Reachable initial perform (perform state call).2

theorem Reachable.invariant {initial : σ → Prop} {perform : σ → κ → α × σ}
    {invariant : σ → Prop} (hinitial : ∀ state, initial state → invariant state)
    (hstep : ∀ state call, invariant state → invariant (perform state call).2)
    {state : σ} (hreached : Reachable initial perform state) : invariant state := by
  induction hreached with
  | start hstart => exact hinitial _ hstart
  | step _ call ih => exact hstep _ call ih

theorem Reachable.run {initial : σ → Prop} {perform : σ → κ → α × σ} (calls : List κ) :
    ∀ {state : σ}, Reachable initial perform state →
      Reachable initial perform (run perform state calls).2 := by
  induction calls with
  | nil => exact fun hreached => hreached
  | cons call calls ih => exact fun hreached => ih (hreached.step call)

theorem run_append (perform : σ → κ → α × σ) (state : σ) (earlier later : List κ) :
    run perform state (earlier ++ later) =
      ((run perform state earlier).1 ++ (run perform (run perform state earlier).2 later).1,
        (run perform (run perform state earlier).2 later).2) := by
  induction earlier generalizing state with
  | nil => rfl
  | cons call calls ih => rw [List.cons_append, run, ih, run, List.cons_append]

/-- Steps taken one after the other answer and end as their calls do. -/
theorem forEach_eq_run {operation : σ → κ → Step σ α} {perform : σ → κ → α × σ}
    (hperform : ∀ state call,
      perform state call = ((operation state call).result, (operation state call).state))
    (state : σ) (calls : List κ) :
    ((Step.forEach operation state calls).result, (Step.forEach operation state calls).state) =
      run perform state calls := by
  induction calls generalizing state with
  | nil => rfl
  | cons call calls ih =>
      rw [run, hperform, ← ih (operation state call).state]
      rfl

/-- Two collections whose answers to each call match, and which stay related, give matching
answers to a run. -/
theorem run_related {perform : σ → κ → α × σ} {reference : τ → κ → β × τ}
    {condition : σ → κ → Prop} {related : σ → τ → Prop} {alike : α → β → Prop}
    (hstep : ∀ state model call, condition state call → related state model →
      alike (perform state call).1 (reference model call).1 ∧
        related (perform state call).2 (reference model call).2)
    (calls : List κ) :
    ∀ state model, related state model → Throughout perform condition state calls →
      List.Forall₂ alike (run perform state calls).1 (run reference model calls).1 ∧
        related (run perform state calls).2 (run reference model calls).2 := by
  induction calls with
  | nil => exact fun state model hrelated _ => ⟨.nil, hrelated⟩
  | cons call calls ih =>
      intro state model hrelated hallowed
      obtain ⟨hanswer, hnext⟩ := hstep state model call hallowed.1 hrelated
      obtain ⟨hanswers, hfinal⟩ := ih _ _ hnext hallowed.2
      exact ⟨.cons hanswer hanswers, hfinal⟩

/-- Two collections that answer each call alike and stay related answer a run alike. -/
theorem run_agrees {perform : σ → κ → α × σ} {reference : τ → κ → α × τ}
    {condition : σ → κ → Prop} {related : σ → τ → Prop}
    (hstep : ∀ state model call, condition state call → related state model →
      (perform state call).1 = (reference model call).1 ∧
        related (perform state call).2 (reference model call).2)
    (calls : List κ) (state : σ) (model : τ) (hrelated : related state model)
    (hallowed : Throughout perform condition state calls) :
    (run perform state calls).1 = (run reference model calls).1 ∧
      related (run perform state calls).2 (run reference model calls).2 := by
  obtain ⟨hanswers, hfinal⟩ := run_related hstep calls state model hrelated hallowed
  rw [List.forall₂_eq_eq_eq] at hanswers
  exact ⟨hanswers, hfinal⟩

/-- The same without a condition on the calls. -/
theorem run_agrees_of_related {perform : σ → κ → α × σ} {reference : τ → κ → α × τ}
    {related : σ → τ → Prop}
    (hstep : ∀ state model call, related state model →
      (perform state call).1 = (reference model call).1 ∧
        related (perform state call).2 (reference model call).2)
    (calls : List κ) {state : σ} {model : τ} (hrelated : related state model) :
    (run perform state calls).1 = (run reference model calls).1 ∧
      related (run perform state calls).2 (run reference model calls).2 := by
  have hallowed : ∀ state model call, True → related state model →
      (perform state call).1 = (reference model call).1 ∧
        related (perform state call).2 (reference model call).2 :=
    fun state model call _ => hstep state model call
  exact run_agrees hallowed calls state model hrelated
    (throughout_of_forall (fun _ _ => trivial) calls state)

end Calls

end Collections
