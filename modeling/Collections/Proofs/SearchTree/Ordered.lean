import Mathlib
import Collections.Proofs.SearchTree.Parts
import Collections.SearchTree.Tree

/-!
# Ordered trees

Each operation on a tree is described by the sequence of its values from left to right:
an insertion puts a value into this sequence, a removal takes one out, and the least and
the greatest value are its ends.  In an ordered tree the sequence increases, and a
search along one path finds what a search through the sequence would find.
-/

namespace Collections

universe u

namespace Tree

variable {α : Type u}

/-! ## The sequence of values -/

theorem size_eq_length (tree : Tree α) : tree.size = tree.inOrder.length := by
  induction tree with
  | leaf => rfl
  | node left value right ihLeft ihRight =>
      rw [size, inOrder, List.length_append, List.length_cons, ihLeft, ihRight]
      rfl

theorem inOrder_ne_nil (left right : Tree α) (value : α) :
    (node left value right).inOrder ≠ [] := by
  rw [inOrder]
  exact List.append_ne_nil_of_right_ne_nil _ (List.cons_ne_nil _ _)

theorem min?_eq_head? (tree : Tree α) : tree.min? = tree.inOrder.head? := by
  induction tree with
  | leaf => rfl
  | node left value right ih _ =>
      cases left with
      | leaf => rfl
      | node first least middle =>
          calc
            (node (node first least middle) value right).min? =
                (node first least middle).min? := rfl
            _ = (node first least middle).inOrder.head? := ih
            _ = (node (node first least middle) value right).inOrder.head? :=
              (List.head?_append_of_ne_nil _ (inOrder_ne_nil first middle least)).symm

theorem max?_eq_getLast? (tree : Tree α) : tree.max? = tree.inOrder.getLast? := by
  induction tree with
  | leaf => rfl
  | node left value right _ ih =>
      cases right with
      | leaf => exact (List.getLast?_concat).symm
      | node middle greatest last =>
          have hlast := inOrder_ne_nil middle last greatest
          calc
            (node left value (node middle greatest last)).max? =
                (node middle greatest last).max? := rfl
            _ = (node middle greatest last).inOrder.getLast? := ih
            _ = ((left.inOrder ++ [value]) ++ (node middle greatest last).inOrder).getLast? :=
              (List.getLast?_append_of_ne_nil _ hlast).symm
            _ = (node left value (node middle greatest last)).inOrder.getLast? := by
              rw [List.append_assoc, List.singleton_append]
              rfl

/-- The value taken out is the first one of the sequence, and the others remain. -/
theorem takeLeast_inOrder (left : Tree α) :
    ∀ (value : α) (right : Tree α),
      (takeLeast left value right).1 :: (takeLeast left value right).2.inOrder =
        (node left value right).inOrder := by
  induction left with
  | leaf => exact fun value right => rfl
  | node first least middle ih _ =>
      intro value right
      rw [takeLeast, inOrder, inOrder, ← List.cons_append, ih]

theorem join_inOrder (left right : Tree α) :
    (join left right).inOrder = left.inOrder ++ right.inOrder := by
  cases right with
  | leaf => cases left <;> simp [join, inOrder]
  | node first least last =>
      cases left with
      | leaf => rfl
      | node before value after =>
          calc
            (join (node before value after) (node first least last)).inOrder =
                (node before value after).inOrder ++
                  (takeLeast first least last).1 :: (takeLeast first least last).2.inOrder := rfl
            _ = (node before value after).inOrder ++ (node first least last).inOrder := by
              rw [takeLeast_inOrder]

/-! ## Orders -/

variable [Ord α]

/-- Every value of the sequence comes before all later ones. -/
def Increasing (values : List α) : Prop :=
  values.Pairwise fun earlier later => compare earlier later = .lt

/-- Every node comes after its left subtree and before its right one. -/
def Ordered : Tree α → Prop
  | .leaf => True
  | .node left value right =>
    left.Ordered ∧ right.Ordered ∧ (∀ smaller ∈ left.inOrder, compare smaller value = .lt) ∧
      ∀ greater ∈ right.inOrder, compare value greater = .lt

/-- A search finds no value where an insertion makes a leaf. -/
theorem insert?_eq_none_iff (tree : Tree α) (added : α) :
    tree.insert? added = none ↔ tree.contains added = true := by
  induction tree with
  | leaf => simp [insert?, contains]
  | node left value right ihLeft ihRight =>
      rw [insert?, contains]
      cases compare added value with
      | lt => rw [Option.map_eq_none_iff, ihLeft]
      | gt => rw [Option.map_eq_none_iff, ihRight]
      | eq => simp

/-- A search finds a value where a removal finds a node. -/
theorem erase?_eq_none_iff (tree : Tree α) (unwanted : α) :
    tree.erase? unwanted = none ↔ tree.contains unwanted = false := by
  induction tree with
  | leaf => simp [erase?, contains]
  | node left value right ihLeft ihRight =>
      rw [erase?, contains]
      cases compare unwanted value with
      | lt => rw [Option.map_eq_none_iff, ihLeft]
      | gt => rw [Option.map_eq_none_iff, ihRight]
      | eq => simp

theorem contains_of_insert? {tree grown : Tree α} {added : α}
    (hinsert : tree.insert? added = some grown) : tree.contains added = false := by
  rw [← Bool.not_eq_true, ← insert?_eq_none_iff, hinsert]
  exact Option.some_ne_none grown

theorem contains_of_erase? {tree rest : Tree α} {unwanted : α}
    (herase : tree.erase? unwanted = some rest) : tree.contains unwanted = true := by
  rw [← Bool.not_eq_false, ← erase?_eq_none_iff, herase]
  exact Option.some_ne_none rest

/-- A removal exchanges a node of an equal value for what remains of its subtrees. -/
theorem exchanged_of_erase? {tree rest : Tree α} {unwanted : α}
    (herase : tree.erase? unwanted = some rest) : ∃ left erased right,
      Exchanged (node left erased right) (join left right) tree rest ∧
        compare unwanted erased = .eq := by
  induction tree generalizing rest with
  | leaf => simp [erase?] at herase
  | node first value second ihFirst ihSecond =>
      rw [erase?] at herase
      cases hcompare : compare unwanted value with
      | lt =>
          rw [hcompare] at herase
          obtain ⟨remaining, hremaining, rfl⟩ := Option.map_eq_some_iff.mp herase
          obtain ⟨left, erased, right, hexchanged, hequal⟩ := ihFirst hremaining
          exact ⟨left, erased, right, .left hexchanged, hequal⟩
      | gt =>
          rw [hcompare] at herase
          obtain ⟨remaining, hremaining, rfl⟩ := Option.map_eq_some_iff.mp herase
          obtain ⟨left, erased, right, hexchanged, hequal⟩ := ihSecond hremaining
          exact ⟨left, erased, right, .right hexchanged, hequal⟩
      | eq =>
          rw [hcompare] at herase
          obtain rfl := Option.some.inj herase
          exact ⟨first, value, second, .here, hcompare⟩

/-- A removal takes one value out of the sequence, whatever the shape of the tree. -/
theorem inOrder_of_erase? {tree rest : Tree α} {unwanted : α}
    (herase : tree.erase? unwanted = some rest) :
    ∃ front erased back, tree.inOrder = front ++ erased :: back ∧
      rest.inOrder = front ++ back ∧ compare unwanted erased = .eq := by
  obtain ⟨left, erased, right, hexchanged, hequal⟩ := exchanged_of_erase? herase
  obtain ⟨front, back, hbefore, hafter⟩ := hexchanged.rewritten .inOrder
  refine ⟨front ++ left.inOrder, erased, right.inOrder ++ back, ?_, ?_, hequal⟩
  · calc
      tree.inOrder = front ++ (left.inOrder ++ erased :: right.inOrder) ++ back := hbefore
      _ = front ++ left.inOrder ++ erased :: (right.inOrder ++ back) := by simp
  · calc
      rest.inOrder = front ++ (join left right).inOrder ++ back := hafter
      _ = front ++ left.inOrder ++ (right.inOrder ++ back) := by simp [join_inOrder]

variable [Std.TransOrd α]

theorem contains_congr (tree : Tree α) {wanted other : α} (hequal : compare wanted other = .eq) :
    tree.contains wanted = tree.contains other := by
  induction tree with
  | leaf => rfl
  | node left value right ihLeft ihRight =>
      rw [contains, contains, Std.TransCmp.congr_left hequal, ihLeft, ihRight]

theorem ordered_iff_increasing (tree : Tree α) : tree.Ordered ↔ Increasing tree.inOrder := by
  induction tree with
  | leaf => simp [Ordered, Increasing, inOrder]
  | node left value right ihLeft ihRight =>
      rw [Ordered, ihLeft, ihRight, inOrder, Increasing, Increasing, Increasing,
        List.pairwise_append, List.pairwise_cons]
      constructor
      · intro hordered
        obtain ⟨hleft, hright, hsmaller, hgreater⟩ := hordered
        refine ⟨hleft, ⟨hgreater, hright⟩, ?_⟩
        intro smaller hmem later hlater
        rcases List.mem_cons.mp hlater with rfl | hlater
        · exact hsmaller smaller hmem
        · exact Std.TransCmp.lt_trans (hsmaller smaller hmem) (hgreater later hlater)
      · intro hincreasing
        obtain ⟨hleft, ⟨hgreater, hright⟩, hacross⟩ := hincreasing
        exact ⟨hleft, hright, fun smaller hmem => hacross smaller hmem value List.mem_cons_self,
          hgreater⟩

/-- In no order does an ordered tree show equal values. -/
theorem Ordered.pairwise_ne {tree : Tree α} (hordered : tree.Ordered) (order : TraversalOrder) :
    (tree.traverse order).Pairwise fun first second => compare first second ≠ .eq := by
  have hsymmetric : ∀ first second : α,
      compare first second ≠ .eq → compare second first ≠ .eq :=
    fun first second hne hequal => hne (Std.OrientedCmp.eq_symm hequal)
  rw [(tree.traverse_perm order).pairwise_iff @hsymmetric]
  apply ((ordered_iff_increasing tree).mp hordered).imp
  intro first second hless hequal
  rw [hless] at hequal
  exact absurd hequal (by decide)

/-- An insertion puts the value between the smaller and the greater ones. -/
theorem Ordered.inOrder_of_insert? {tree grown : Tree α} {added : α} (hordered : tree.Ordered)
    (hinsert : tree.insert? added = some grown) :
    ∃ front back, tree.inOrder = front ++ back ∧ grown.inOrder = front ++ added :: back ∧
      (∀ smaller ∈ front, compare smaller added = .lt) ∧
        ∀ greater ∈ back, compare added greater = .lt := by
  induction tree generalizing grown with
  | leaf =>
      rw [insert?] at hinsert
      obtain rfl := Option.some.inj hinsert
      exact ⟨[], [], rfl, rfl, by simp, by simp⟩
  | node left value right ihLeft ihRight =>
      obtain ⟨hleft, hright, hsmaller, hgreater⟩ := hordered
      rw [insert?] at hinsert
      cases hcompare : compare added value with
      | lt =>
          rw [hcompare] at hinsert
          obtain ⟨deeper, hdeeper, rfl⟩ := Option.map_eq_some_iff.mp hinsert
          obtain ⟨front, back, hbefore, hafter, hbelow, habove⟩ := ihLeft hleft hdeeper
          refine ⟨front, back ++ value :: right.inOrder, ?_, ?_, hbelow, ?_⟩
          · rw [inOrder, hbefore, List.append_assoc]
          · rw [inOrder, hafter, List.append_assoc, List.cons_append]
          · intro other hother
            rcases List.mem_append.mp hother with hback | hrest
            · exact habove other hback
            · rcases List.mem_cons.mp hrest with rfl | hmem
              · exact hcompare
              · exact Std.TransCmp.lt_trans hcompare (hgreater other hmem)
      | gt =>
          rw [hcompare] at hinsert
          obtain ⟨deeper, hdeeper, rfl⟩ := Option.map_eq_some_iff.mp hinsert
          obtain ⟨front, back, hbefore, hafter, hbelow, habove⟩ := ihRight hright hdeeper
          have hvalue : compare value added = .lt := Std.OrientedCmp.lt_of_gt hcompare
          refine ⟨left.inOrder ++ value :: front, back, ?_, ?_, ?_, habove⟩
          · rw [inOrder, hbefore, List.append_assoc, List.cons_append]
          · rw [inOrder, hafter, List.append_assoc, List.cons_append]
          · intro other hother
            rcases List.mem_append.mp hother with hmem | hrest
            · exact Std.TransCmp.lt_trans (hsmaller other hmem) hvalue
            · rcases List.mem_cons.mp hrest with rfl | hfront
              · exact hvalue
              · exact hbelow other hfront
      | eq =>
          rw [hcompare] at hinsert
          simp at hinsert

theorem Ordered.insert? {tree grown : Tree α} {added : α} (hordered : tree.Ordered)
    (hinsert : tree.insert? added = some grown) : grown.Ordered := by
  obtain ⟨front, back, hbefore, hafter, hbelow, habove⟩ := hordered.inOrder_of_insert? hinsert
  rw [ordered_iff_increasing, hbefore, Increasing, List.pairwise_append] at hordered
  obtain ⟨hfront, hback, hacross⟩ := hordered
  rw [ordered_iff_increasing, hafter, Increasing, List.pairwise_append, List.pairwise_cons]
  refine ⟨hfront, ⟨habove, hback⟩, ?_⟩
  intro smaller hsmaller later hlater
  rcases List.mem_cons.mp hlater with rfl | hmem
  · exact hbelow smaller hsmaller
  · exact hacross smaller hsmaller later hmem

theorem Ordered.erase? {tree rest : Tree α} {unwanted : α} (hordered : tree.Ordered)
    (herase : tree.erase? unwanted = some rest) : rest.Ordered := by
  obtain ⟨front, erased, back, hbefore, hafter, -⟩ := inOrder_of_erase? herase
  rw [ordered_iff_increasing, hbefore] at hordered
  rw [ordered_iff_increasing, hafter]
  exact hordered.sublist (List.Sublist.append_left (List.sublist_cons_self erased back) front)

/-- No other value of an ordered tree is equal to one of them. -/
theorem Ordered.ne_of_middle {tree : Tree α} (hordered : tree.Ordered) {front back : List α}
    {value middle : α} (hinOrder : tree.inOrder = front ++ middle :: back)
    (hequal : compare value middle = .eq) :
    ∀ other ∈ front ++ back, compare value other ≠ .eq := by
  rw [ordered_iff_increasing, hinOrder, Increasing, List.pairwise_append, List.pairwise_cons]
    at hordered
  obtain ⟨-, ⟨hbehind, -⟩, hacross⟩ := hordered
  intro other hother hsame
  have hmiddle := Std.TransCmp.eq_trans (Std.OrientedCmp.eq_symm hequal) hsame
  rcases List.mem_append.mp hother with hfront | hback
  · rw [Std.OrientedCmp.gt_of_lt (hacross other hfront middle List.mem_cons_self)] at hmiddle
    simp at hmiddle
  · rw [hbehind other hback] at hmiddle
    simp at hmiddle

/-- A search along one path finds every value of the tree. -/
theorem Ordered.contains_iff {tree : Tree α} (hordered : tree.Ordered) (wanted : α) :
    tree.contains wanted = true ↔ ∃ value ∈ tree.inOrder, compare wanted value = .eq := by
  induction tree with
  | leaf => simp [contains, inOrder]
  | node left value right ihLeft ihRight =>
      obtain ⟨hleft, hright, hsmaller, hgreater⟩ := hordered
      rw [contains, inOrder]
      simp only [List.mem_append, List.mem_cons, or_and_right, exists_or, exists_eq_left,
        ← ihLeft hleft]
      cases hcompare : compare wanted value with
      | lt =>
          have habove : ¬ ∃ other ∈ right.inOrder, compare wanted other = .eq := by
            intro hfound
            obtain ⟨other, hmem, hequal⟩ := hfound
            rw [Std.TransCmp.lt_trans hcompare (hgreater other hmem)] at hequal
            simp at hequal
          simp [habove]
      | gt =>
          have hbelow : ¬ left.contains wanted = true := by
            rw [ihLeft hleft]
            intro hfound
            obtain ⟨other, hmem, hequal⟩ := hfound
            rw [Std.TransCmp.gt_trans hcompare (Std.OrientedCmp.gt_of_lt (hsmaller other hmem))]
              at hequal
            simp at hequal
          simp [hbelow, ihRight hright]
      | eq => simp

/-! ## The ends of an increasing sequence -/

variable {values : List α}

theorem Increasing.head?_eq_some_iff (hincreasing : Increasing values) (least : α) :
    values.head? = some least ↔
      least ∈ values ∧ ∀ other ∈ values, (compare least other).isLE = true := by
  cases values with
  | nil => simp
  | cons first rest =>
      obtain ⟨hfirst, -⟩ := List.pairwise_cons.mp hincreasing
      rw [List.head?_cons, Option.some.injEq]
      constructor
      · rintro rfl
        refine ⟨List.mem_cons_self, ?_⟩
        intro other hother
        rcases List.mem_cons.mp hother with rfl | hrest
        · exact Std.ReflCmp.isLE_rfl
        · rw [hfirst other hrest]
          rfl
      · intro hleast
        rcases List.mem_cons.mp hleast.1 with heq | hrest
        · exact heq.symm
        · have hbelow := hleast.2 first List.mem_cons_self
          rw [Std.OrientedCmp.gt_of_lt (hfirst least hrest)] at hbelow
          simp at hbelow

theorem Increasing.getLast?_eq_some_iff (hincreasing : Increasing values) (greatest : α) :
    values.getLast? = some greatest ↔
      greatest ∈ values ∧ ∀ other ∈ values, (compare other greatest).isLE = true := by
  rcases List.eq_nil_or_concat values with rfl | ⟨front, last, rfl⟩
  · simp
  · rw [List.concat_eq_append] at hincreasing ⊢
    obtain ⟨-, -, hlast⟩ := List.pairwise_append.mp hincreasing
    rw [List.getLast?_concat, Option.some.injEq]
    constructor
    · rintro rfl
      refine ⟨by simp, ?_⟩
      intro other hother
      rcases List.mem_append.mp hother with hfront | hend
      · rw [hlast other hfront last List.mem_cons_self]
        rfl
      · rw [List.mem_singleton.mp hend]
        exact Std.ReflCmp.isLE_rfl
    · intro hgreatest
      rcases List.mem_append.mp hgreatest.1 with hfront | hend
      · have habove := hgreatest.2 last (by simp)
        rw [Std.OrientedCmp.gt_of_lt (hlast greatest hfront last List.mem_cons_self)] at habove
        simp at habove
      · exact (List.mem_singleton.mp hend).symm

end Tree

end Collections
