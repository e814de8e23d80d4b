import Mathlib
import Collections.Element
import Collections.Proofs.Sorted.Alike
import Collections.Proofs.Sorted.SortedRuns

/-!
# Writing in place and inserting anew

A write in place is a short cut for taking the old element out and inserting the value.  Both
put the value among the elements equal to it: an insertion in front of them all, the short cut
behind those of them that stood before the index already.
-/

namespace Collections

universe u

namespace SortedList

variable {α : Type u} [Ord α] {list : SortedList α} {front back ahead behind : List α}
variable {value : α}

omit [Ord α] in
theorem eq_of_toList {left right : SortedList α} (hdirection : left.direction = right.direction)
    (hitems : left.toList = right.toList) : left = right := by
  cases left
  cases right
  rw [mk.injEq]
  exact ⟨hdirection, Array.toList_inj.mp hitems⟩

/-- A value is neither before the left neighbour of an index nor behind the right one.  A
neighbour that is missing does not matter. -/
structure Settled (list : SortedList α) (index : Nat) (value : α) : Prop where
  left : ∀ previous neighbour, previous + 1 = index → list.items[previous]? = some neighbour →
    list.direction.precedes value neighbour = false
  right : ∀ neighbour, list.items[index + 1]? = some neighbour →
    list.direction.precedes neighbour value = false

variable [Std.TransOrd α]

theorem settled_iff_fitsAt (list : SortedList α) (index : Nat) (value : α) :
    list.Settled index value ↔ list.fitsAt index value = true := by
  rw [fitsAt.eq_def, Bool.and_eq_true, Option.all_eq_true]
  simp only [Direction.admits_iff_not_precedes]
  cases index with
  | zero => exact ⟨fun hsettled => ⟨rfl, hsettled.right⟩, fun hfits => ⟨by simp, hfits.2⟩⟩
  | succ previous =>
      simp only [Option.all_eq_true, Direction.admits_iff_not_precedes]
      constructor
      · exact fun hsettled => ⟨fun neighbour => hsettled.left previous neighbour rfl, hsettled.right⟩
      · refine fun hfits => ⟨fun other neighbour hother => ?_, hfits.2⟩
        rw [Nat.succ.inj hother]
        exact hfits.1 neighbour

/-! ## The run of equal elements -/

/-- A value that fits between two parts of a list is inserted into the first of them or right
behind it. -/
theorem Divides.exists_run (hdivides : list.Divides value ahead behind)
    (hparts : list.toList = front ++ back)
    (hright : ∀ next ∈ back.head?, list.direction.admits value next = true) :
    ∃ run, front = ahead ++ run ∧ behind = run ++ back := by
  have hsplit : front ++ back = ahead ++ behind := hparts.symm.trans hdivides.toList_eq
  rcases List.append_eq_append_iff.mp hsplit with ⟨run, hahead, hback⟩ | ⟨run, hfront, hbehind⟩
  · cases run with
    | nil =>
        rw [List.append_nil] at hahead
        rw [List.nil_append] at hback
        exact ⟨[], by rw [hahead, List.append_nil], by rw [hback, List.nil_append]⟩
    | cons next others =>
        have hprecedes := hdivides.front_precedes next (by simp [hahead])
        have hadmits := hright next (by simp [hback])
        rw [Direction.not_precedes_of_admits hadmits] at hprecedes
        exact absurd hprecedes Bool.false_ne_true
  · exact ⟨run, hfront, hbehind⟩

/-- A value that is inserted between two parts of a list fits there. -/
theorem Divides.fits (hdivides : list.Divides value front back) :
    Fits list.direction front back value := by
  constructor
  · intro previous hprevious
    exact Direction.admits_of_precedes
      (hdivides.front_precedes previous (List.mem_of_mem_getLast? hprevious))
  · intro next hnext
    exact Direction.admits_of_not_precedes
      (hdivides.back_follows next (List.mem_of_mem_head? hnext))

/-- Where a value stands that is written over an element, beside the place where it stands if
it is inserted in place of that element: a run of equal elements is all that lies between. -/
structure Lands (list : SortedList α) (index : Nat) (value : α) (position : Nat)
    (after : SortedList α) (ahead run behind : List α) : Prop where
  others_eq : list.toList.eraseIdx index = ahead ++ run ++ behind
  inserted_at : ((list.removeAt index).2.insert value).1 = ahead.length
  inserted_eq : ((list.removeAt index).2.insert value).2.toList = ahead ++ value :: (run ++ behind)
  direction_eq : after.direction = list.direction
  after_eq : after.toList = ahead ++ run ++ value :: behind
  position_eq : position = (ahead ++ run).length
  run_equal : ∀ resident ∈ run, compare resident value = .eq

variable {resident : α}

/-- A value that fits is written in place, behind the run of elements equal to it. -/
theorem Ordered.lands_of_fits (hordered : list.Ordered)
    (hparts : list.toList = front ++ resident :: back) (hunequal : compare resident value ≠ .eq)
    (hfits : Fits list.direction front back value) :
    (list.set front.length value).result = .ok front.length ∧
      (list.set front.length value).log = [] ∧
        ∃ ahead run, list.Lands front.length value front.length
          (list.set front.length value).state ahead run back := by
  obtain ⟨-, hrest, hdirection⟩ := removeAt_of_parts hparts
  obtain ⟨ahead, behind, hdivides⟩ := (hordered.removeAt front.length).exists_divides value
  -- The insertion goes in front of all equal elements, the write in place behind the first few.
  obtain ⟨run, hfront, hbehind⟩ := hdivides.exists_run hrest (hdirection ▸ hfits.2)
  obtain ⟨hposition, hinserted, -⟩ := hdivides.insert
  have hafterOrdered := hordered.set front.length value
  have hafterDirection := direction_set list front.length value
  rcases set_cases hparts value with ⟨hequal, -⟩ | ⟨-, -, items, hitems, hset⟩ | ⟨-, hunfit, -⟩
  · exact absurd hequal hunequal
  · have hafter : (list.set front.length value).state.toList = front ++ value :: back := by
      rw [hset]
      exact hitems
    rw [Ordered, hafter, hafterDirection, List.pairwise_append] at hafterOrdered
    refine ⟨by rw [hset]; rfl, by rw [hset]; rfl, ahead, run, ?_⟩
    exact {
      others_eq := by rw [hparts, eraseIdx_length, hfront]
      inserted_at := hposition
      inserted_eq := by
        rw [← hbehind]
        exact hinserted
      direction_eq := hafterDirection
      after_eq := by rw [hafter, hfront]
      position_eq := congrArg List.length hfront
      run_equal := by
        intro other hother
        have hforth := hafterOrdered.2.2 other (hfront ▸ List.mem_append_right ahead hother) value
          List.mem_cons_self
        have hback := hdivides.back_follows other (hbehind ▸ List.mem_append_left back hother)
        rw [← Direction.admits_iff_not_precedes] at hback
        exact Direction.eq_of_admits hforth (hdirection ▸ hback) }
  · exact absurd hfits hunfit

/-- A value that does not fit is inserted anew, and it never returns to the same index. -/
theorem Ordered.lands_of_not_fits (hordered : list.Ordered)
    (hparts : list.toList = front ++ resident :: back) (hunequal : compare resident value ≠ .eq)
    (hunfit : ¬ Fits list.direction front back value) :
    ∃ ahead behind, (list.set front.length value).result = .ok ahead.length ∧
      (list.set front.length value).log = [.elementRepositioned front.length] ∧
        ahead.length ≠ front.length ∧
          list.Lands front.length value ahead.length (list.set front.length value).state
            ahead [] behind := by
  obtain ⟨-, hrest, hdirection⟩ := removeAt_of_parts hparts
  obtain ⟨ahead, behind, hdivides⟩ := (hordered.removeAt front.length).exists_divides value
  obtain ⟨hposition, hinserted, -⟩ := hdivides.insert
  have hmoved : ahead.length ≠ front.length := by
    intro hstays
    obtain ⟨rfl, rfl⟩ := List.append_inj (hdivides.toList_eq.symm.trans hrest) hstays
    exact hunfit (hdirection ▸ hdivides.fits)
  rcases set_cases hparts value with ⟨hequal, -⟩ | ⟨-, hfits, -⟩ | ⟨-, -, items, hitems, hset⟩
  · exact absurd hequal hunequal
  · exact absurd hfits hunfit
  · have hsame : (⟨list.direction, items⟩ : SortedList α) = (list.removeAt front.length).2 :=
      eq_of_toList hdirection.symm (hitems.trans hrest.symm)
    rw [hsame] at hset
    refine ⟨ahead, behind, ?_, by rw [hset], hmoved, ?_⟩
    · rw [hset]
      exact congrArg Except.ok hposition
    · exact {
        others_eq := by
          rw [hparts, eraseIdx_length, List.append_nil, ← hrest]
          exact hdivides.toList_eq
        inserted_at := hposition
        inserted_eq := hinserted
        direction_eq := direction_set list front.length value
        after_eq := by
          rw [hset, List.append_nil]
          exact hinserted
        position_eq := by rw [List.append_nil]
        run_equal := fun other hother => absurd hother List.not_mem_nil }

/-! ## The two ways side by side -/

/-- What a write of a value over a different element does, beside taking the element out and
inserting the value. -/
structure Rewritten (list : SortedList α) (index : Nat) (value : α) (position : Nat) : Prop where
  direction_eq : (list.set index value).state.direction = list.direction
  alike : Sorted.Alike (list.set index value).state.toList
    ((list.removeAt index).2.insert value).2.toList
  /-- All other elements keep their instances and their order. -/
  others_eq : (list.set index value).state.toList.eraseIdx position = list.toList.eraseIdx index
  holds_value : (list.set index value).state.items[position]? = some value
  inserted_le : ((list.removeAt index).2.insert value).1 ≤ position
  equal_between : ∀ place resident, ((list.removeAt index).2.insert value).1 ≤ place →
    place ≤ position → (list.set index value).state.items[place]? = some resident →
      compare resident value = .eq
  stays_iff : position = index ↔ list.Settled index value
  stays : list.Settled index value → (list.set index value).log = []
  moves : ¬ list.Settled index value →
    position = ((list.removeAt index).2.insert value).1 ∧
      (list.set index value).state = ((list.removeAt index).2.insert value).2 ∧
        (list.set index value).log = [.elementRepositioned index]

variable {index position : Nat} {run : List α}

omit [Std.TransOrd α] in
theorem Lands.others (hlands : list.Lands index value position (list.set index value).state
    ahead run behind) :
    (list.set index value).state.toList.eraseIdx position = list.toList.eraseIdx index := by
  rw [hlands.after_eq, hlands.position_eq, eraseIdx_length, hlands.others_eq]

theorem Lands.alike (hordered : list.Ordered)
    (hlands : list.Lands index value position (list.set index value).state ahead run behind) :
    Sorted.Alike (list.set index value).state.toList
      ((list.removeAt index).2.insert value).2.toList := by
  have hwritten := hordered.set index value
  have hinserted := (hordered.removeAt index).insert value
  have hdirection : ((list.removeAt index).2.insert value).2.direction = list.direction :=
    (sublist_removeAt list index).2
  rw [Ordered, hlands.direction_eq] at hwritten
  rw [Ordered, hdirection] at hinserted
  apply Sorted.alike_of_perm hwritten hinserted
  rw [hlands.after_eq, hlands.inserted_eq]
  calc
    (ahead ++ run ++ value :: behind).Perm (value :: (ahead ++ run ++ behind)) :=
      List.perm_middle
    _ = value :: (ahead ++ (run ++ behind)) := by rw [List.append_assoc]
    (value :: (ahead ++ (run ++ behind))).Perm (ahead ++ value :: (run ++ behind)) :=
      List.perm_middle.symm

theorem Lands.equal_between {after : SortedList α}
    (hlands : list.Lands index value position after ahead run behind) {place : Nat}
    (hfrom : ahead.length ≤ place) (hto : place ≤ position)
    (hresident : after.items[place]? = some resident) : compare resident value = .eq := by
  have hwithin : place - ahead.length < (run ++ [value]).length := by
    have hposition := hlands.position_eq
    rw [List.length_append] at hposition ⊢
    rw [List.length_singleton]
    omega
  have hlist : after.toList = ahead ++ (run ++ [value] ++ behind) := by
    rw [hlands.after_eq]
    simp
  rw [← Array.getElem?_toList, show after.items.toList = _ from hlist,
    List.getElem?_append_right hfrom, List.getElem?_append_left hwithin] at hresident
  rcases List.mem_append.mp (List.mem_of_getElem? hresident) with hrun | hvalue
  · exact hlands.run_equal resident hrun
  · rw [List.mem_singleton.mp hvalue]
    exact Std.ReflCmp.compare_self

/-- All that both ways have in common. -/
theorem Lands.rewritten (hordered : list.Ordered)
    (hlands : list.Lands index value position (list.set index value).state ahead run behind)
    (hstays : position = index ↔ list.Settled index value)
    (hquiet : list.Settled index value → (list.set index value).log = [])
    (hmoves : ¬ list.Settled index value →
      run = [] ∧ (list.set index value).log = [.elementRepositioned index]) :
    list.Rewritten index value position where
  direction_eq := hlands.direction_eq
  alike := hlands.alike hordered
  others_eq := hlands.others
  holds_value := by
    rw [hlands.position_eq]
    exact getElem?_of_parts hlands.after_eq
  inserted_le := by
    rw [hlands.inserted_at, hlands.position_eq, List.length_append]
    exact Nat.le_add_right _ _
  equal_between := by
    intro place resident hfrom hto hresident
    rw [hlands.inserted_at] at hfrom
    exact hlands.equal_between hfrom hto hresident
  stays_iff := hstays
  stays := hquiet
  moves := by
    intro hunsettled
    obtain ⟨hrun, hlog⟩ := hmoves hunsettled
    have hposition := hlands.position_eq
    have hafter := hlands.after_eq
    have hinserted := hlands.inserted_eq
    rw [hrun, List.append_nil] at hposition hafter
    rw [hrun, List.nil_append] at hinserted
    refine ⟨hposition.trans hlands.inserted_at.symm, ?_, hlog⟩
    apply eq_of_toList _ (hafter.trans hinserted.symm)
    exact hlands.direction_eq.trans (sublist_removeAt list index).2.symm

/-- A write inside an ordered list never fails.  A value equal to the resident changes nothing;
any other ends up as if the resident were taken out and the value inserted, up to its place
among the elements equal to it. -/
theorem Ordered.set_beside_insertion (hordered : list.Ordered) (hindex : index < list.items.size)
    (value : α) :
    ∃ position, (list.set index value).result = .ok position ∧
      (compare list.items[index] value = .eq →
        position = index ∧ (list.set index value).state = list ∧
          (list.set index value).log = []) ∧
      (compare list.items[index] value ≠ .eq → list.Rewritten index value position) := by
  obtain ⟨front, back, hparts, hlength⟩ := exists_parts hindex
  have hlist : list.toList = front ++ list.items[index] :: back := hparts
  generalize list.items[index] = resident at hlist
  subst hlength
  by_cases hequal : compare resident value = .eq
  · rcases set_cases hlist value with ⟨-, hset⟩ | ⟨hunequal, -⟩ | ⟨hunequal, -⟩
    · rw [hset]
      exact ⟨front.length, rfl, fun _ => ⟨rfl, rfl, rfl⟩, fun hunequal => absurd hequal hunequal⟩
    · exact absurd hequal hunequal
    · exact absurd hequal hunequal
  have hsettled : list.Settled front.length value ↔ Fits list.direction front back value :=
    (settled_iff_fitsAt list _ value).trans (fitsAt_iff hlist value)
  by_cases hfits : Fits list.direction front back value
  · obtain ⟨hresult, hlog, ahead, run, hlands⟩ := hordered.lands_of_fits hlist hequal hfits
    refine ⟨_, hresult, fun hsame => absurd hsame hequal, fun _ => ?_⟩
    exact hlands.rewritten hordered (iff_of_true rfl (hsettled.mpr hfits)) (fun _ => hlog)
      fun hunsettled => absurd (hsettled.mpr hfits) hunsettled
  · obtain ⟨ahead, behind, hresult, hlog, hmoved, hlands⟩ :=
      hordered.lands_of_not_fits hlist hequal hfits
    have hunsettled : ¬ list.Settled front.length value := fun hstays =>
      hfits (hsettled.mp hstays)
    refine ⟨_, hresult, fun hsame => absurd hsame hequal, fun _ => ?_⟩
    exact hlands.rewritten hordered (iff_of_false hmoved hunsettled)
      (fun hstays => absurd hstays hunsettled) fun _ => ⟨rfl, hlog⟩

/-- A list with two equal elements in front of its last one. -/
def tiedList : SortedList Element :=
  ⟨.descending, #[.tagged 4 1, .tagged 3 2, .tagged 3 3, .tagged 1 4]⟩

/-- A value that is written behind two elements equal to it, in front of which an insertion
would put it. -/
theorem set_beside_insertion_tiedList :
    tiedList.Ordered ∧ ((tiedList.removeAt 3).2.insert (.tagged 3 5)).1 = 1 ∧
      (tiedList.set 3 (.tagged 3 5)).result = .ok 3 ∧ tiedList.Rewritten 3 (.tagged 3 5) 3 := by
  have hordered : tiedList.Ordered := by decide
  obtain ⟨position, hresult, -, hrewritten⟩ :=
    @Ordered.set_beside_insertion _ _ _ _ 3 hordered (by decide) (.tagged 3 5)
  have hstays : (tiedList.set 3 (.tagged 3 5)).result = .ok 3 := by cbv
  obtain rfl : position = 3 := Except.ok.inj (hresult.symm.trans hstays)
  exact ⟨hordered, by cbv, hstays, hrewritten (by decide)⟩

end SortedList

end Collections
