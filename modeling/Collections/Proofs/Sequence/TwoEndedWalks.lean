import Mathlib
import Collections.Proofs.Sequence.DequeRuns
import Collections.Proofs.Sequence.LinkedRuns

/-!
# Walks from both ends

A walk over a linked list or over a deque can be called from either end, in any pattern.  The
two ends share out the sequence that is held: neither takes what the other took, nothing is
left out, and the walk always tells how much is left between them.  In a linked list the two
ends follow links of their own and only a counter keeps them apart; in a deque they are offsets
from the head that are turned into slots anew in each call.
-/

namespace Collections

universe u

variable {α : Type u} {items : List α}

/-- A pattern in which the two ends meet and both are called again. -/
def meetingPattern : List SequenceEnd :=
  [.front, .back, .back, .front, .back, .front]

namespace LinkedList

variable {list : LinkedList α}

theorem Represents.sharesOut_walk (hrepresents : list.Represents items) :
    DoubleEndedCursor.SharesOut list.walk items := by
  obtain ⟨placed, free, hlayout, rfl⟩ := hrepresents
  exact (yields_shows list).sharesOut hlayout.shows_walk

/-- Whatever calls a linked list has seen, a walk shares out its sequence between both ends. -/
theorem Initial.run_shares_out_links [BEq α] (hinitial : Initial list items)
    (calls : List (LinkedCall α)) :
    DoubleEndedCursor.SharesOut (Calls.run perform list calls).2.walk
      (Calls.run LinkedCall.onSequence items calls).2 :=
  (hinitial.represents.run calls).2.sharesOut_walk

theorem run_shares_out_links_recyclingCalls :
    ∃ list : LinkedList Element,
      Initial list [.tagged 1 1, .tagged 2 2, .tagged 3 3, .tagged 1 4] ∧
      DoubleEndedCursor.SharesOut (Calls.run perform list recyclingCalls).2.walk
        [.tagged 3 3, .tagged 7 7, .tagged 8 8] ∧
      DoubleEndedCursor.calls meetingPattern (Calls.run perform list recyclingCalls).2.walk =
        [(some (.tagged 3 3), 2), (some (.tagged 8 8), 1), (some (.tagged 7 7), 0), (none, 0),
          (none, 0), (none, 0)] := by
  have hinitial := Initial.ofList
    [Element.tagged 1 1, Element.tagged 2 2, Element.tagged 3 3, Element.tagged 1 4]
  exact ⟨_, hinitial, hinitial.run_shares_out_links recyclingCalls, by cbv⟩

end LinkedList

namespace Deque

variable {deque : Deque α}

theorem Represents.sharesOut_walk (hrepresents : deque.Represents items) :
    DoubleEndedCursor.SharesOut deque.walk items :=
  (yields_shows items).sharesOut hrepresents.shows_walk

/-- Whatever calls a deque has seen, a walk shares out its sequence between both ends. -/
theorem Initial.run_shares_out_ring (hinitial : Initial deque items)
    (calls : List (DequeCall α)) :
    DoubleEndedCursor.SharesOut (Calls.run perform deque calls).2.walk
      (Calls.run DequeCall.onSequence items calls).2 :=
  (hinitial.represents.run calls).2.sharesOut_walk

/-- Calls after which the elements stand on both sides of the end of the ring. -/
def splittingCalls : List (DequeCall Element) :=
  [.pushBack (.tagged 1 1), .pushBack (.tagged 2 2), .pushFront (.tagged 3 3),
    .pushFront (.tagged 4 4), .popBack]

theorem run_shares_out_ring_splittingCalls :
    Initial (withCapacity 4 : Deque Element) [] ∧
      (Calls.run perform (withCapacity 4) splittingCalls).2.head = 2 ∧
      (Calls.run perform (withCapacity 4) splittingCalls).2.capacity = 4 ∧
      DoubleEndedCursor.SharesOut (Calls.run perform (withCapacity 4) splittingCalls).2.walk
        [.tagged 4 4, .tagged 3 3, .tagged 1 1] ∧
      DoubleEndedCursor.calls meetingPattern
          (Calls.run perform (withCapacity 4) splittingCalls).2.walk =
        [(some (.tagged 4 4), 2), (some (.tagged 1 1), 1), (some (.tagged 3 3), 0), (none, 0),
          (none, 0), (none, 0)] := by
  have hinitial : Initial (withCapacity 4 : Deque Element) [] := .withCapacity 4
  exact ⟨hinitial, by cbv, by cbv, hinitial.run_shares_out_ring splittingCalls, by cbv⟩

end Deque

end Collections
