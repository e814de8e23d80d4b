import Mathlib
import Collections.Element
import Collections.Sorted.Shared
import Collections.Proofs.Sorted.Alike
import Collections.Proofs.Sorted.SortedRuns

/-!
# Sessions of several clients

Any number of clients use one shared sorted list, each with calls of its own, and the calls
interleave in any way.  A call is one step, and a block of operations run under the lock is one
step as well.  Whatever the interleaving is, the list stays ordered and holds what the completed
calls leave in it.  If the clients only insert, the interleaving decides no more than which of
several equal instances stands in front.
-/

namespace Collections

universe u v

/-- A call of a shared sorted list.  A block run under the lock may choose its operations by
the list that it finds, and so by all that the list is going to answer. -/
inductive SharedCall (α : Type u) where
  | insert (item : α)
  | set (index : Nat) (value : α)
  | remove (item : α)
  | removeAt (index : Nat)
  | reverse
  | clear
  | withLock (block : SortedList α → List (SortedCall α))

/-- The operations that a call carries out on the list that it finds. -/
def SharedCall.operations {α : Type u} (list : SortedList α) : SharedCall α → List (SortedCall α)
  | .insert item => [.insert item]
  | .set index value => [.set index value]
  | .remove item => [.remove item]
  | .removeAt index => [.removeAt index]
  | .reverse => [.reverse]
  | .clear => [.clear]
  | .withLock block => block list

namespace SortedList

variable {α : Type u} [Ord α]

/-- An operation with what it logs; only a write logs anything. -/
def take (list : SortedList α) : SortedCall α → Step (SortedList α) (SortedAnswer α)
  | .set index value => (list.set index value).map .written
  | call => .ofPair (list.perform call)

theorem perform_eq_take (list : SortedList α) (call : SortedCall α) :
    list.perform call = ((list.take call).result, (list.take call).state) := by
  cases call <;> rfl

/-- What operations carried out one after the other answer, and which instances they may
leave in the list. -/
inductive Carried : SortedList α → List (SortedCall α) → List (SortedAnswer α) →
    SortedList α → Prop
  | done {list : SortedList α} : Carried list [] [] list
  | next {list middle after : SortedList α} {call : SortedCall α} {answer : SortedAnswer α}
      {calls : List (SortedCall α)} {answers : List (SortedAnswer α)}
      (heffect : Effect list call answer middle)
      (hdirection : middle.direction = call.turn list.direction)
      (hrest : Carried middle calls answers after) :
      Carried list (call :: calls) (answer :: answers) after

variable [Std.TransOrd α]

theorem Ordered.run (calls : List (SortedCall α)) :
    ∀ {list : SortedList α}, list.Ordered →
      (Calls.run SortedList.perform list calls).2.Ordered ∧
        Carried list calls (Calls.run SortedList.perform list calls).1
          (Calls.run SortedList.perform list calls).2 := by
  induction calls with
  | nil => exact fun hordered => ⟨hordered, .done⟩
  | cons call calls ih =>
      intro list hordered
      obtain ⟨hnext, hdirection⟩ := hordered.perform call
      obtain ⟨hafter, hcarried⟩ := ih hnext
      exact ⟨hafter, .next (hordered.effect call) hdirection hcarried⟩

end SortedList

namespace SharedSortedList

variable {α : Type u} [Ord α]

/-- A call through the interface of the shared list, with one answer for each operation. -/
def take (shared : SharedSortedList α) :
    SharedCall α → Step (SharedSortedList α) (List (SortedAnswer α))
  | .insert item =>
    (SortedCollection.insert shared item).map fun position => [.inserted position]
  | .set index value =>
    (SortedCollection.set shared index value).map fun result => [.written result]
  | .remove item => (SortedCollection.remove shared item).map fun found => [.removed found]
  | .removeAt index => (SortedCollection.removeAt shared index).map fun result => [.taken result]
  | .reverse => (SortedCollection.reverse shared).map fun _ => [.done]
  | .clear => (SortedCollection.clear shared).map fun _ => [.done]
  | .withLock block => shared.withLock fun list => .forEach SortedList.take list (block list)

def perform (shared : SharedSortedList α) (call : SharedCall α) :
    List (SortedAnswer α) × SharedSortedList α :=
  ((shared.take call).result, (shared.take call).state)

/-- A call of the shared list is a run of its operations on the content. -/
theorem take_eq_run (shared : SharedSortedList α) (call : SharedCall α) :
    ((shared.take call).result, (shared.take call).state.content) =
      Calls.run SortedList.perform shared.content (call.operations shared.content) := by
  cases call with
  | withLock block =>
      exact Calls.forEach_eq_run SortedList.perform_eq_take shared.content (block shared.content)
  | _ => rfl

variable [Std.TransOrd α]

theorem ordered_take {shared : SharedSortedList α} (hordered : shared.content.Ordered)
    (call : SharedCall α) :
    (shared.take call).state.content.Ordered ∧
      SortedList.Carried shared.content (call.operations shared.content)
        (shared.take call).result (shared.take call).state.content := by
  have hrun := hordered.run (call.operations shared.content)
  rwa [← take_eq_run shared call] at hrun

end SharedSortedList

/-! ## Interleavings -/

/-- A call that has been completed, and what it was answered. -/
structure Completion (ι : Type v) (α : Type u) where
  client : ι
  call : SharedCall α
  answers : List (SortedAnswer α)

/-- A shared list, the calls that each client still has to make, and those completed so far in
the order of their completion. -/
structure Session (ι : Type v) (α : Type u) where
  shared : SharedSortedList α
  pending : ι → List (SharedCall α)
  completed : List (Completion ι α)

namespace Session

variable {ι : Type v} {α : Type u}

def start (shared : SharedSortedList α) (clients : ι → List (SharedCall α)) : Session ι α :=
  ⟨shared, clients, []⟩

def Finished (session : Session ι α) : Prop :=
  ∀ client, session.pending client = []

variable [DecidableEq ι]

/-- The calls that a client has completed. -/
def completedBy (session : Session ι α) (client : ι) : List (SharedCall α) :=
  (session.completed.filter fun completion => completion.client = client).map Completion.call

variable [Ord α]

/-- A client makes a call and has the other calls left. -/
def advance (session : Session ι α) (client : ι) (call : SharedCall α)
    (calls : List (SharedCall α)) : Session ι α :=
  let step := session.shared.take call
  ⟨step.state, Function.update session.pending client calls,
    session.completed ++ [⟨client, call, step.result⟩]⟩

/-- The sessions that an interleaving of the calls of the clients leads to. -/
inductive Reached (shared : SharedSortedList α) (clients : ι → List (SharedCall α)) :
    Session ι α → Prop
  | start : Reached shared clients (start shared clients)
  | step {session : Session ι α} (hreached : Reached shared clients session) (client : ι)
      {call : SharedCall α} {calls : List (SharedCall α)}
      (hpending : session.pending client = call :: calls) :
      Reached shared clients (session.advance client call calls)

omit [DecidableEq ι] in
/-- The completed calls lead from one list to the other, each with the effect and the answers
that it should have on the list that it finds. -/
inductive Accounted (list : SortedList α) : List (Completion ι α) → SortedList α → Prop
  | start : Accounted list [] list
  | step {earlier : List (Completion ι α)} {middle after : SortedList α}
      {completion : Completion ι α} (haccounted : Accounted list earlier middle)
      (hcarried : SortedList.Carried middle (completion.call.operations middle)
        completion.answers after) :
      Accounted list (earlier ++ [completion]) after

/-- What holds of a session however its calls interleave. -/
structure Sound (shared : SharedSortedList α) (clients : ι → List (SharedCall α))
    (session : Session ι α) : Prop where
  ordered : session.shared.content.Ordered
  accounted : Accounted shared.content session.completed session.shared.content
  /-- The calls in the order of their completion, made by a single client, do the same. -/
  sequential : Calls.run SharedSortedList.perform shared (session.completed.map Completion.call) =
    (session.completed.map Completion.answers, session.shared)
  /-- No call is lost and none is made twice. -/
  inTurn : ∀ client, session.completedBy client ++ session.pending client = clients client

variable {shared : SharedSortedList α} {clients : ι → List (SharedCall α)}
variable {session : Session ι α} {client : ι} {call : SharedCall α}
variable {calls : List (SharedCall α)}

theorem completedBy_advance (session : Session ι α) (client : ι) (call : SharedCall α)
    (calls : List (SharedCall α)) (other : ι) :
    (session.advance client call calls).completedBy other =
      if client = other then session.completedBy other ++ [call]
        else session.completedBy other := by
  rw [completedBy, advance, List.filter_append, List.map_append, completedBy]
  by_cases hother : client = other
  · simp [hother]
  · simp [hother]

theorem pending_advance (session : Session ι α) (client : ι) (call : SharedCall α)
    (calls : List (SharedCall α)) :
    (session.advance client call calls).pending = Function.update session.pending client calls :=
  rfl

theorem inTurn_advance (hpending : session.pending client = call :: calls) (other : ι) :
    (session.advance client call calls).completedBy other ++
      (session.advance client call calls).pending other =
        session.completedBy other ++ session.pending other := by
  rw [completedBy_advance, pending_advance]
  by_cases hother : client = other
  · subst hother
    rw [if_pos rfl, hpending, Function.update_self, List.append_assoc, List.singleton_append]
  · rw [if_neg hother, Function.update_of_ne (Ne.symm hother)]

variable [Std.TransOrd α]

theorem Sound.advance (hsound : session.Sound shared clients)
    (hpending : session.pending client = call :: calls) :
    (session.advance client call calls).Sound shared clients := by
  obtain ⟨hordered, hcarried⟩ := SharedSortedList.ordered_take hsound.ordered call
  exact {
    ordered := hordered
    accounted := .step hsound.accounted hcarried
    sequential := by
      rw [Session.advance, List.map_append, List.map_append, Calls.run_append, hsound.sequential]
      rfl
    inTurn := fun other => (inTurn_advance hpending other).trans (hsound.inTurn other) }

theorem Reached.sound (hordered : shared.content.Ordered)
    (hreached : Reached shared clients session) : session.Sound shared clients := by
  induction hreached with
  | start => exact ⟨hordered, .start, rfl, fun _ => rfl⟩
  | step _ client hpending ih => exact ih.advance hpending

end Session

/-! ## Clients that only insert -/

/-- A call that does nothing but insert: one item, or several under the lock. -/
inductive Insertion (α : Type u) where
  | single (item : α)
  | block (items : List α)

namespace Insertion

variable {ι : Type v} {α : Type u}

def call : Insertion α → SharedCall α
  | .single item => .insert item
  | .block items => .withLock fun _ => items.map .insert

def items : Insertion α → List α
  | .single item => [item]
  | .block items => items

/-- The instances that insertions add. -/
def added (insertions : List (Insertion α)) : Multiset α :=
  (insertions.flatMap items : List α)

theorem added_cons (insertion : Insertion α) (insertions : List (Insertion α)) :
    added (insertion :: insertions) = (insertion.items : Multiset α) + added insertions :=
  Multiset.coe_add _ _

theorem take_call [Ord α] (shared : SharedSortedList α) (insertion : Insertion α) :
    (shared.take insertion.call).state.content = shared.content.extend insertion.items := by
  have hcontent := congrArg Prod.snd (SharedSortedList.take_eq_run shared insertion.call)
  cases insertion with
  | single item => rfl
  | block items => exact hcontent.trans (SortedList.run_insert items shared.content)

/-- All that the clients add is what one insertion adds and what the rest add. -/
theorem sum_added_update [Fintype ι] [DecidableEq ι] {insertions : ι → List (Insertion α)}
    {client : ι} {first : Insertion α} {others : List (Insertion α)}
    (hclient : insertions client = first :: others) :
    ∑ each, added (insertions each) =
      (first.items : Multiset α) +
        ∑ each, added (Function.update insertions client others each) := by
  have hrest : ∑ each ∈ Finset.univ.erase client, added (insertions each) =
      ∑ each ∈ Finset.univ.erase client,
        added (Function.update insertions client others each) := by
    apply Finset.sum_congr rfl
    intro each heach
    rw [Function.update_of_ne (Finset.ne_of_mem_erase heach)]
  calc
    ∑ each, added (insertions each) =
        added (insertions client) + ∑ each ∈ Finset.univ.erase client, added (insertions each) :=
      (Finset.add_sum_erase _ _ (Finset.mem_univ client)).symm
    _ = (first.items : Multiset α) +
        (added others + ∑ each ∈ Finset.univ.erase client,
          added (Function.update insertions client others each)) := by
      rw [hclient, added_cons, hrest, add_assoc]
    _ = (first.items : Multiset α) +
        ∑ each, added (Function.update insertions client others each) := by
      rw [← Finset.add_sum_erase _ (fun each => added (Function.update insertions client others each))
        (Finset.mem_univ client), Function.update_self]

end Insertion

namespace Session

variable {ι : Type v} {α : Type u} [Fintype ι] [DecidableEq ι] [Ord α] [Std.TransOrd α]
variable {shared : SharedSortedList α} {session : Session ι α}
variable {insertions : ι → List (Insertion α)}

/-- What a session of insertions holds and what is still to be inserted are all the instances
there are from the start. -/
structure Balanced (shared : SharedSortedList α) (insertions rest : ι → List (Insertion α))
    (session : Session ι α) : Prop where
  pending_eq : session.pending = fun client => (rest client).map Insertion.call
  direction_eq : session.shared.content.direction = shared.content.direction
  instances_add : session.shared.content.instances + ∑ client, Insertion.added (rest client) =
    shared.content.instances + ∑ client, Insertion.added (insertions client)

theorem Balanced.advance {rest : ι → List (Insertion α)} {client : ι} {call : SharedCall α}
    {calls : List (SharedCall α)} (hordered : session.shared.content.Ordered)
    (hbalanced : session.Balanced shared insertions rest)
    (hpending : session.pending client = call :: calls) :
    ∃ others, (session.advance client call calls).Balanced shared insertions
      (Function.update rest client others) := by
  -- A call of an inserting client is one of its insertions, which then is not left any more.
  rw [hbalanced.pending_eq] at hpending
  obtain ⟨first, others, hclient, rfl, rfl⟩ := List.map_eq_cons_iff.mp hpending
  have hcontent := first.take_call session.shared
  obtain ⟨-, hinstances, hdirection⟩ := hordered.extend first.items
  refine ⟨others, ?_, ?_, ?_⟩
  · funext each
    rw [Session.advance, hbalanced.pending_eq,
      Function.apply_update fun _ => List.map Insertion.call]
  · rw [Session.advance, hcontent, hdirection, hbalanced.direction_eq]
  · rw [← hbalanced.instances_add, Insertion.sum_added_update hclient, Session.advance, hcontent,
      hinstances]
    abel

theorem Reached.balanced (hordered : shared.content.Ordered)
    (hreached : Reached shared (fun client => (insertions client).map Insertion.call) session) :
    ∃ rest, session.Balanced shared insertions rest := by
  induction hreached with
  | start => exact ⟨insertions, rfl, rfl, rfl⟩
  | step hreached client hpending ih =>
      obtain ⟨rest, hbalanced⟩ := ih
      obtain ⟨others, hnext⟩ := hbalanced.advance (hreached.sound hordered).ordered hpending
      exact ⟨_, hnext⟩

/-- When all insertions are made, the instances are those of the start and all that were
added. -/
theorem Reached.instances_of_finished (hordered : shared.content.Ordered)
    (hreached : Reached shared (fun client => (insertions client).map Insertion.call) session)
    (hfinished : session.Finished) :
    session.shared.content.direction = shared.content.direction ∧
      session.shared.content.instances =
        shared.content.instances + ∑ client, Insertion.added (insertions client) := by
  obtain ⟨rest, hbalanced⟩ := hreached.balanced hordered
  have hrest : ∀ client, rest client = [] := by
    intro client
    have hpending := hfinished client
    rw [hbalanced.pending_eq] at hpending
    exact List.map_eq_nil_iff.mp hpending
  have hnothing : ∑ client, Insertion.added (rest client) = 0 :=
    Finset.sum_eq_zero fun client _ => by rw [hrest client]; rfl
  refine ⟨hbalanced.direction_eq, ?_⟩
  rw [← hbalanced.instances_add, hnothing, add_zero]

/-- However the calls of the clients interleave, a shared list stays ordered and its instances
are changed by exactly the completed calls.  If the clients only insert, they all end up with a
list that is alike to the sorted values. -/
theorem sound_of_reachable (hreachable : shared.content.Reachable)
    (clients : ι → List (SharedCall α)) :
    (∀ session, Reached shared clients session → session.Sound shared clients) ∧
      ∀ insertions : ι → List (Insertion α),
        clients = (fun client => (insertions client).map Insertion.call) →
          ∀ session, Reached shared clients session → session.Finished →
            (∀ values : List α,
              (values : Multiset α) =
                shared.content.instances + ∑ client, Insertion.added (insertions client) →
              Sorted.Alike session.shared.toList
                (values.mergeSort shared.content.direction.admits)) ∧
            ∀ other, Reached shared clients other → other.Finished →
              Sorted.Alike session.shared.toList other.shared.toList := by
  have hordered := hreachable.ordered
  refine ⟨fun session hreached => hreached.sound hordered, ?_⟩
  rintro insertions rfl session hreached hfinished
  obtain ⟨hdirection, hinstances⟩ := hreached.instances_of_finished hordered hfinished
  have hsession := (hreached.sound hordered).ordered
  rw [SortedList.Ordered, hdirection] at hsession
  constructor
  · intro values hvalues
    apply Sorted.alike_of_perm hsession
      (SortedList.ordered_ofList shared.content.direction values)
    have hperm : session.shared.content.toList.Perm values :=
      Multiset.coe_eq_coe.mp (hinstances.trans hvalues.symm)
    exact hperm.trans (List.mergeSort_perm values _).symm
  · intro other hother hdone
    obtain ⟨hsame, hequal⟩ := hother.instances_of_finished hordered hdone
    have hordered := (hother.sound hordered).ordered
    rw [SortedList.Ordered, hsame] at hordered
    exact Sorted.alike_of_perm hsession hordered
      (Multiset.coe_eq_coe.mp (hinstances.trans hequal.symm))

/-- Two clients that insert equal instances, one of them under the lock. -/
def tiedInsertions : Bool → List (Insertion Element)
  | false => [.single (.tagged 5 1), .single (.tagged 3 2)]
  | true => [.block [.tagged 5 3, .tagged 4 4]]

/-- Two interleavings that leave equal instances in a different order. -/
theorem sound_of_reachable_tiedInsertions :
    ∃ (shared : SharedSortedList Element) (first second : Session Bool Element),
      shared.content.Reachable ∧
        Reached shared (fun client => (tiedInsertions client).map Insertion.call) first ∧
        Reached shared (fun client => (tiedInsertions client).map Insertion.call) second ∧
        first.Finished ∧ second.Finished ∧
        first.shared.toList =
          [.tagged 3 2, .tagged 4 4, .tagged 5 3, .tagged 5 1, .tagged 5 0] ∧
        second.shared.toList =
          [.tagged 3 2, .tagged 4 4, .tagged 5 1, .tagged 5 3, .tagged 5 0] ∧
        Sorted.Alike first.shared.toList second.shared.toList := by
  have hreachable : SortedList.Reachable (.ofList .ascending [.tagged 5 0] : SortedList Element) :=
    .start (Or.inr ⟨.ascending, [.tagged 5 0], rfl⟩)
  have hfirst : Reached (.ofSortedList (.ofList .ascending [.tagged 5 0]))
      (fun client => (tiedInsertions client).map Insertion.call) _ :=
    .step (.step (.step .start false rfl) true rfl) false rfl
  have hsecond : Reached (.ofSortedList (.ofList .ascending [.tagged 5 0]))
      (fun client => (tiedInsertions client).map Insertion.call) _ :=
    .step (.step (.step .start true rfl) false rfl) false rfl
  obtain ⟨-, halike⟩ := (sound_of_reachable hreachable _).2 tiedInsertions rfl _ hfirst
    (by rintro (_ | _) <;> rfl)
  refine ⟨_, _, _, hreachable, hfirst, hsecond, ?_, ?_, by cbv, by cbv, halike _ hsecond ?_⟩
  all_goals
    rintro (_ | _) <;> rfl

end Session

end Collections
