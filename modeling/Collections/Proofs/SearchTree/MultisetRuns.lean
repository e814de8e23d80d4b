import Mathlib
import Collections.Element
import Collections.Proofs.SearchTree.Bag
import Collections.Proofs.SearchTree.Ordered
import Collections.Proofs.SearchTree.TreeWalk

/-!
# Runs of a search tree with repetitions

The entries of a search tree are the values of its nodes, each with one occurrence and
the repetitions that the table on the side counts.  A tree represents a bag if its
entries are those of the bag; each call keeps it so, and a run does, whichever values a
removal moves to other nodes.
-/

namespace Collections

universe u

namespace BinarySearchTree

variable {α : Type u} [Ord α]

/-- How often the instance in a node occurs. -/
def entryOf (tree : BinarySearchTree α) (stored : α) : α × Nat :=
  (stored, 1 + tree.repetitions.getD stored 0)

/-- The values of the nodes with the numbers of their occurrences, from left to right. -/
def entries (tree : BinarySearchTree α) : List (α × Nat) :=
  tree.root.inOrder.map tree.entryOf

/-- The tree has the entries of a bag, and its parts fit together. -/
structure Represents (tree : BinarySearchTree α) (bag : Bag α) : Prop where
  ordered : tree.root.Ordered
  nodeCount_eq : tree.nodeCount = tree.root.size
  /-- Only values that are in the tree have repetitions. -/
  repeated : ∀ value extra, tree.repetitions[value]? = some extra →
    0 < extra ∧ tree.contains value = true
  entries_perm : tree.entries.Perm bag.entries
  length_eq : tree.length = bag.size

/-! ## Calls by their cases -/

section Cases

variable {tree : BinarySearchTree α} {value : α}

theorem add_of_insert? {grown : Tree α} (hinsert : tree.root.insert? value = some grown) :
    tree.add value = { tree with
      root := grown
      length := tree.length + 1
      nodeCount := tree.nodeCount + 1 } := by
  rw [add, hinsert]

theorem add_of_insert?_none (hinsert : tree.root.insert? value = none) :
    tree.add value = { tree with
      length := tree.length + 1
      repetitions := recount tree.repetitions value (tree.repetitions.getD value 0 + 1) } := by
  rw [add, hinsert]

/-- The table of repetitions after one repetition of a value was used up. -/
def oneLess (repetitions : Std.TreeMap α Nat) (value : α) (extra : Nat) : Std.TreeMap α Nat :=
  if extra - 1 = 0 then repetitions.erase value else recount repetitions value (extra - 1)

theorem remove_of_repeated {extra : Nat} (hextra : tree.repetitions[value]? = some extra) :
    tree.remove value = (true, { tree with
      length := tree.length - 1
      repetitions := oneLess tree.repetitions value extra }) := by
  rw [remove, hextra]
  rfl

theorem remove_of_erase? {rest : Tree α} (hsingle : tree.repetitions[value]? = none)
    (herase : tree.root.erase? value = some rest) :
    tree.remove value = (true, { tree with
      root := rest
      length := tree.length - 1
      nodeCount := tree.nodeCount - 1 }) := by
  rw [remove, hsingle, herase]

theorem remove_of_erase?_none (hsingle : tree.repetitions[value]? = none)
    (herase : tree.root.erase? value = none) : tree.remove value = (false, tree) := by
  rw [remove, hsingle, herase]

end Cases

variable [Std.TransOrd α] {tree : BinarySearchTree α} {bag : Bag α}

/-! ## The table of repetitions -/

section Counts

variable (repetitions : Std.TreeMap α Nat) (value : α) (count : Nat) (other : α)

variable {repetitions value} in
theorem compare_of_getKey? {stored : α} (hstored : repetitions.getKey? value = some stored) :
    compare stored value = .eq := by
  have hequal := repetitions.compare_getKey?_self (k := value)
  rw [hstored] at hequal
  exact of_decide_eq_true hequal

/-- The instance under which a value is counted is equal to the value. -/
theorem compare_getKeyD_self : compare (repetitions.getKeyD value value) value = .eq := by
  rw [Std.TreeMap.getKeyD_eq_getD_getKey?]
  cases hkey : repetitions.getKey? value with
  | none => exact Std.ReflCmp.compare_self
  | some stored => exact compare_of_getKey? hkey

theorem getElem?_recount : (recount repetitions value count)[other]? =
    if compare value other = .eq then some count else repetitions[other]? := by
  rw [recount, Std.TreeMap.getElem?_insert,
    Std.TransCmp.congr_left (compare_getKeyD_self repetitions value)]

theorem getD_recount : (recount repetitions value count).getD other 0 =
    if compare value other = .eq then count else repetitions.getD other 0 := by
  rw [Std.TreeMap.getD_eq_getD_getElem?, getElem?_recount, Std.TreeMap.getD_eq_getD_getElem?,
    apply_ite (Option.getD · 0), Option.getD_some]

/-- A value that has been counted before keeps its instance in the table. -/
theorem getKey?_recount {stored : α} (hstored : repetitions.getKey? value = some stored) :
    (recount repetitions value count).getKey? value = some stored := by
  rw [recount, Std.TreeMap.getKeyD_eq_getD_getKey?, hstored, Option.getD_some,
    Std.TreeMap.getKey?_insert, if_pos (compare_of_getKey? hstored)]

end Counts

/-! ## What a represented bag shows -/

theorem represents_empty (traversal : TraversalOrder) :
    (empty traversal : BinarySearchTree α).Represents .empty where
  ordered := trivial
  nodeCount_eq := rfl
  repeated value extra hextra := by simp [empty] at hextra
  entries_perm := List.Perm.nil
  length_eq := rfl

theorem Represents.find?_eq_none_iff (hrepresents : tree.Represents bag) (value : α) :
    bag.find? value = none ↔ tree.contains value = false := by
  rw [← Bool.not_eq_true, BinarySearchTree.contains, hrepresents.ordered.contains_iff,
    Bag.find?_eq_none_iff]
  simp only [← hrepresents.entries_perm.mem_iff, entries, List.forall_mem_map, entryOf,
    not_exists, not_and]

theorem Represents.find?_ne_none (hrepresents : tree.Represents bag) {value : α}
    (hcontains : tree.contains value = true) : bag.find? value ≠ none := by
  rw [ne_eq, hrepresents.find?_eq_none_iff, hcontains]
  simp

theorem Represents.count_eq (hrepresents : tree.Represents bag) {value : α} {entry : α × Nat}
    (hfound : bag.find? value = some entry) :
    entry.2 = 1 + tree.repetitions.getD value 0 := by
  obtain ⟨hmem, hequal⟩ := Bag.mem_of_find? hfound
  rw [← hrepresents.entries_perm.mem_iff, entries] at hmem
  obtain ⟨stored, -, rfl⟩ := List.mem_map.mp hmem
  rw [Std.TreeMap.getD_congr hequal]
  rfl

omit [Std.TransOrd α] in
/-- A value that is not in the tree has no repetitions. -/
theorem Represents.single_of_absent (hrepresents : tree.Represents bag) {value : α}
    (habsent : tree.contains value = false) : tree.repetitions[value]? = none := by
  cases hextra : tree.repetitions[value]? with
  | none => rfl
  | some extra =>
      rw [(hrepresents.repeated value extra hextra).2] at habsent
      simp at habsent

/-! ## Adding -/

theorem entryOf_eq_raised (tree : BinarySearchTree α) (value stored : α) :
    (stored, 1 + (recount tree.repetitions value
        (tree.repetitions.getD value 0 + 1)).getD stored 0) =
      Bag.raised value (tree.entryOf stored) := by
  rw [getD_recount, Bag.raised, Bag.hasKey, entryOf]
  by_cases hequal : compare value stored = .eq
  · rw [if_pos hequal, if_pos (Ordering.isEq_iff_eq_eq.mpr hequal),
      Std.TreeMap.getD_congr hequal]
    rfl
  · rw [if_neg hequal, if_neg fun hkey => hequal (Ordering.isEq_iff_eq_eq.mp hkey)]

/-- A value that is in the tree is counted. -/
theorem Represents.addRepeated (hrepresents : tree.Represents bag) {value : α}
    (hinsert : tree.root.insert? value = none) :
    (tree.add value).Represents (bag.add value) := by
  have hpresent : tree.contains value = true := (Tree.insert?_eq_none_iff _ _).mp hinsert
  have hknown := hrepresents.find?_ne_none hpresent
  rw [add_of_insert?_none hinsert]
  exact {
    ordered := hrepresents.ordered
    nodeCount_eq := hrepresents.nodeCount_eq
    repeated := by
      intro other extra hextra
      rw [getElem?_recount] at hextra
      split at hextra
      next hequal =>
        obtain rfl := Option.some.inj hextra
        exact ⟨Nat.succ_pos _, (tree.root.contains_congr hequal).symm.trans hpresent⟩
      next => exact hrepresents.repeated other extra hextra
    entries_perm := by
      rw [Bag.add, dif_neg hknown]
      apply List.Perm.trans _ (hrepresents.entries_perm.map (Bag.raised value))
      rw [entries, entries, List.map_map]
      apply List.Perm.of_eq
      exact List.map_congr_left fun stored _ => tree.entryOf_eq_raised value stored
    length_eq := by
      change tree.length + 1 = _
      rw [Bag.size_add, hrepresents.length_eq] }

/-- A value that is not in the tree gets a node. -/
theorem Represents.addNode (hrepresents : tree.Represents bag) {value : α} {grown : Tree α}
    (hinsert : tree.root.insert? value = some grown) :
    (tree.add value).Represents (bag.add value) := by
  have habsent : tree.contains value = false := Tree.contains_of_insert? hinsert
  have hmissing := (hrepresents.find?_eq_none_iff value).mpr habsent
  have hgrown := hrepresents.ordered.insert? hinsert
  obtain ⟨front, back, hbefore, hafter, -⟩ := hrepresents.ordered.inOrder_of_insert? hinsert
  have hperm : grown.inOrder.Perm (value :: tree.root.inOrder) := by
    rw [hbefore, hafter]
    exact List.perm_middle
  rw [add_of_insert? hinsert]
  exact {
    ordered := hgrown
    nodeCount_eq := by
      change tree.nodeCount + 1 = grown.size
      rw [hrepresents.nodeCount_eq, Tree.size_eq_length, Tree.size_eq_length, hperm.length_eq,
        List.length_cons]
    repeated := by
      intro other extra hextra
      obtain ⟨hpositive, hcontains⟩ := hrepresents.repeated other extra hextra
      obtain ⟨stored, hstored, hequal⟩ := (hrepresents.ordered.contains_iff other).mp hcontains
      refine ⟨hpositive, (hgrown.contains_iff other).mpr ⟨stored, ?_, hequal⟩⟩
      exact hperm.mem_iff.mpr (List.mem_cons_of_mem _ hstored)
    entries_perm := by
      have hnew : tree.entryOf value = (value, 1) := by
        rw [entryOf, Std.TreeMap.getD_eq_getD_getElem?, hrepresents.single_of_absent habsent]
        rfl
      rw [Bag.add, dif_pos hmissing]
      change (grown.inOrder.map tree.entryOf).Perm ((value, 1) :: bag.entries)
      rw [← hnew]
      exact (hperm.map tree.entryOf).trans (hrepresents.entries_perm.cons _)
    length_eq := by
      change tree.length + 1 = _
      rw [Bag.size_add, hrepresents.length_eq] }

theorem Represents.add (hrepresents : tree.Represents bag) (value : α) :
    (tree.add value).Represents (bag.add value) := by
  cases hinsert : tree.root.insert? value with
  | some grown => exact hrepresents.addNode hinsert
  | none => exact hrepresents.addRepeated hinsert

theorem Represents.extend (values : List α) :
    ∀ {tree : BinarySearchTree α} {bag : Bag α}, tree.Represents bag →
      (tree.extend values).Represents (values.foldl Bag.add bag) := by
  induction values with
  | nil => exact fun hrepresents => hrepresents
  | cons value values ih => exact fun hrepresents => ih (hrepresents.add value)

/-! ## Removing -/

theorem getElem?_oneLess (repetitions : Std.TreeMap α Nat) (value : α) (extra : Nat)
    (other : α) :
    (oneLess repetitions value extra)[other]? =
      if compare value other = .eq then (if extra - 1 = 0 then none else some (extra - 1))
      else repetitions[other]? := by
  rw [oneLess]
  split
  · rw [Std.TreeMap.getElem?_erase]
  · rw [getElem?_recount]

theorem getD_oneLess (repetitions : Std.TreeMap α Nat) (value : α) (extra : Nat) (other : α) :
    (oneLess repetitions value extra).getD other 0 =
      if compare value other = .eq then extra - 1 else repetitions.getD other 0 := by
  rw [Std.TreeMap.getD_eq_getD_getElem?, getElem?_oneLess]
  split
  · split
    next hlast => exact hlast.symm
    next => rfl
  · rw [Std.TreeMap.getD_eq_getD_getElem?]

theorem entryOf_eq_lowered {value : α} {extra : Nat} (hpositive : 0 < extra)
    (hextra : tree.repetitions[value]? = some extra) (stored : α) :
    some (stored, 1 + (oneLess tree.repetitions value extra).getD stored 0) =
      Bag.lowered value (tree.entryOf stored) := by
  rw [getD_oneLess, Bag.lowered, Bag.hasKey, entryOf]
  by_cases hequal : compare value stored = .eq
  · have hcount : tree.repetitions.getD stored 0 = extra := by
      rw [← Std.TreeMap.getD_congr hequal, Std.TreeMap.getD_eq_getD_getElem?, hextra]
      rfl
    have hseveral : 1 + extra ≠ 1 := by
      rw [ne_eq, Nat.add_eq_left]
      exact Nat.ne_of_gt hpositive
    rw [if_pos hequal, if_pos (Ordering.isEq_iff_eq_eq.mpr hequal), hcount, if_neg hseveral,
      Nat.add_sub_assoc hpositive]
  · rw [if_neg hequal, if_neg fun hkey => hequal (Ordering.isEq_iff_eq_eq.mp hkey)]

/-- A repetition is used up, and the tree stays as it is. -/
theorem Represents.removeRepeated (hrepresents : tree.Represents bag) {value : α} {extra : Nat}
    (hextra : tree.repetitions[value]? = some extra) :
    (tree.remove value).1 = (bag.find? value).isSome ∧
      (tree.remove value).2.Represents (bag.remove value) := by
  obtain ⟨hpositive, hcontains⟩ := hrepresents.repeated value extra hextra
  obtain ⟨entry, hfound⟩ :=
    Option.ne_none_iff_exists'.mp (hrepresents.find?_ne_none hcontains)
  rw [remove_of_repeated hextra, hfound]
  refine ⟨rfl, ?_⟩
  exact {
    ordered := hrepresents.ordered
    nodeCount_eq := hrepresents.nodeCount_eq
    repeated := by
      intro other left hleft
      rw [getElem?_oneLess] at hleft
      split at hleft
      next hequal =>
        split at hleft
        · simp at hleft
        next hseveral =>
          obtain rfl := Option.some.inj hleft
          exact ⟨Nat.pos_of_ne_zero hseveral,
            (tree.root.contains_congr hequal).symm.trans hcontains⟩
      next => exact hrepresents.repeated other left hleft
    entries_perm := by
      apply List.Perm.trans _ (hrepresents.entries_perm.filterMap (Bag.lowered value))
      rw [entries, entries, List.filterMap_map, ← List.filterMap_eq_map]
      apply List.Perm.of_eq
      exact List.filterMap_congr fun stored _ => entryOf_eq_lowered hpositive hextra stored
    length_eq := by
      change tree.length - 1 = _
      rw [hrepresents.length_eq, ← Bag.size_remove hfound, Nat.add_sub_cancel] }

/-- The entries lose that of a value that occurs once when its node is taken out. -/
theorem filterMap_lowered_entries (hordered : tree.root.Ordered) {value erased : α}
    {front back : List α} (hsingle : tree.repetitions[value]? = none)
    (hinOrder : tree.root.inOrder = front ++ erased :: back)
    (hequal : compare value erased = .eq) :
    tree.entries.filterMap (Bag.lowered value) = (front ++ back).map tree.entryOf := by
  have hothers := hordered.ne_of_middle hinOrder hequal
  have hdropped : Bag.lowered value (tree.entryOf erased) = none := by
    have hcount : tree.repetitions.getD erased 0 = 0 := by
      rw [← Std.TreeMap.getD_congr hequal, Std.TreeMap.getD_eq_getD_getElem?, hsingle]
      rfl
    rw [Bag.lowered, Bag.hasKey, entryOf, hcount, hequal]
    rfl
  have hkept : ((front ++ back).map tree.entryOf).filterMap (Bag.lowered value) =
      (front ++ back).map tree.entryOf := by
    apply Bag.filterMap_lowered_eq_self
    rw [List.forall_mem_map]
    intro stored hstored
    exact Ordering.isEq_eq_false.mpr (hothers stored hstored)
  calc
    tree.entries.filterMap (Bag.lowered value) =
        (front.map tree.entryOf).filterMap (Bag.lowered value) ++
          (back.map tree.entryOf).filterMap (Bag.lowered value) := by
      rw [entries, hinOrder, List.map_append, List.map_cons, List.filterMap_append,
        List.filterMap_cons, hdropped]
    _ = ((front ++ back).map tree.entryOf).filterMap (Bag.lowered value) := by
      rw [List.map_append, List.filterMap_append]
    _ = (front ++ back).map tree.entryOf := hkept

/-- The last occurrence of a value goes with its node, whatever other values move. -/
theorem Represents.removeNode (hrepresents : tree.Represents bag) {value : α} {rest : Tree α}
    (hsingle : tree.repetitions[value]? = none) (herase : tree.root.erase? value = some rest) :
    (tree.remove value).1 = (bag.find? value).isSome ∧
      (tree.remove value).2.Represents (bag.remove value) := by
  have hcontains : tree.contains value = true := Tree.contains_of_erase? herase
  obtain ⟨entry, hfound⟩ :=
    Option.ne_none_iff_exists'.mp (hrepresents.find?_ne_none hcontains)
  have hordered := hrepresents.ordered.erase? herase
  obtain ⟨front, erased, back, hbefore, hafter, hequal⟩ := Tree.inOrder_of_erase? herase
  rw [remove_of_erase? hsingle herase, hfound]
  refine ⟨rfl, ?_⟩
  exact {
    ordered := hordered
    nodeCount_eq := by
      change tree.nodeCount - 1 = rest.size
      rw [hrepresents.nodeCount_eq, Tree.size_eq_length, Tree.size_eq_length, hbefore, hafter,
        List.perm_middle.length_eq, List.length_cons, Nat.add_sub_cancel]
    repeated := by
      intro other extra hextra
      obtain ⟨hpositive, hother⟩ := hrepresents.repeated other extra hextra
      obtain ⟨stored, hstored, hsame⟩ := (hrepresents.ordered.contains_iff other).mp hother
      rw [hbefore, List.perm_middle.mem_iff, List.mem_cons] at hstored
      rcases hstored with rfl | hkept
      · -- The erased value has no repetitions, so it is not the one looked for.
        have hvalue := Std.TransCmp.eq_trans hequal (Std.OrientedCmp.eq_symm hsame)
        rw [← Std.TreeMap.getElem?_congr hvalue, hsingle] at hextra
        simp at hextra
      · exact ⟨hpositive, (hordered.contains_iff other).mpr ⟨stored, hafter ▸ hkept, hsame⟩⟩
    entries_perm := by
      apply List.Perm.trans _ (hrepresents.entries_perm.filterMap (Bag.lowered value))
      apply List.Perm.of_eq
      change rest.inOrder.map tree.entryOf = _
      rw [filterMap_lowered_entries hrepresents.ordered hsingle hbefore hequal, hafter]
    length_eq := by
      change tree.length - 1 = _
      rw [hrepresents.length_eq, ← Bag.size_remove hfound, Nat.add_sub_cancel] }

theorem Represents.remove (hrepresents : tree.Represents bag) (value : α) :
    (tree.remove value).1 = (bag.find? value).isSome ∧
      (tree.remove value).2.Represents (bag.remove value) := by
  cases hextra : tree.repetitions[value]? with
  | some extra => exact hrepresents.removeRepeated hextra
  | none =>
      cases herase : tree.root.erase? value with
      | some rest => exact hrepresents.removeNode hextra herase
      | none =>
          have hmissing := (hrepresents.find?_eq_none_iff value).mpr
            ((Tree.erase?_eq_none_iff _ _).mp herase)
          rw [remove_of_erase?_none hextra herase, hmissing, Bag.remove_of_none hmissing]
          exact ⟨rfl, hrepresents⟩

/-! ## Runs -/

/-- A call has the answer that the bag gives and changes both alike. -/
theorem Represents.perform (hrepresents : tree.Represents bag) (call : BagCall α) :
    (tree.perform call).1 = (bag.perform call).1 ∧
      (tree.perform call).2.Represents (bag.perform call).2 := by
  cases call with
  | add value => exact ⟨rfl, hrepresents.add value⟩
  | extend values => exact ⟨rfl, hrepresents.extend values⟩
  | remove value =>
      obtain ⟨hanswer, hremoved⟩ := hrepresents.remove value
      exact ⟨congrArg some hanswer, hremoved⟩
  | clear => exact ⟨rfl, represents_empty tree.traversal⟩

/-- All that can be seen of a tree is as the bag says. -/
structure Agrees (tree : BinarySearchTree α) (bag : Bag α) : Prop where
  contains : ∀ value, tree.contains value = (bag.find? value).isSome
  occurrences : ∀ value, tree.occurrences value = bag.count value
  length : tree.length = bag.size
  nodeCount : tree.nodeCount = bag.entries.length
  min? : ∀ least, tree.min? = some least ↔
    least ∈ bag.instances ∧ ∀ other ∈ bag.instances, (compare least other).isLE = true
  max? : ∀ greatest, tree.max? = some greatest ↔
    greatest ∈ bag.instances ∧ ∀ other ∈ bag.instances, (compare other greatest).isLE = true
  ends_none : (tree.min? = none ↔ bag.instances = []) ∧ (tree.max? = none ↔ bag.instances = [])
  /-- A walk from left to right yields the stored instances in increasing order. -/
  inOrder : (tree.toListIn .inOrder).Perm bag.instances ∧
    Tree.Increasing (tree.toListIn .inOrder) ∧
      ∀ calls, Cursor.calls calls (tree.walkIn .inOrder) =
        Cursor.visits (tree.toListIn .inOrder) calls

omit [Std.TransOrd α] in
theorem Represents.instances_perm (hrepresents : tree.Represents bag) :
    tree.root.inOrder.Perm bag.instances := by
  have hinstances := hrepresents.entries_perm.map Prod.fst
  have hvalues : tree.entries.map Prod.fst = tree.root.inOrder := by
    calc
      tree.entries.map Prod.fst = tree.root.inOrder.map id := List.map_map
      _ = tree.root.inOrder := List.map_id _
  rwa [hvalues] at hinstances

theorem Represents.contains_eq (hrepresents : tree.Represents bag) (value : α) :
    tree.contains value = (bag.find? value).isSome := by
  cases hfound : bag.find? value with
  | none => exact (hrepresents.find?_eq_none_iff value).mp hfound
  | some entry =>
      rw [Option.isSome_some, ← Bool.not_eq_false, ← hrepresents.find?_eq_none_iff, hfound]
      simp

theorem Represents.occurrences_eq (hrepresents : tree.Represents bag) (value : α) :
    tree.occurrences value = bag.count value := by
  rw [BinarySearchTree.occurrences, hrepresents.contains_eq, Bag.count]
  cases hfound : bag.find? value with
  | none => rfl
  | some entry =>
      rw [Option.isSome_some, if_pos rfl, Option.map_some, Option.getD_some,
        hrepresents.count_eq hfound]

theorem Represents.agrees (hrepresents : tree.Represents bag) : tree.Agrees bag := by
  have hincreasing := (Tree.ordered_iff_increasing _).mp hrepresents.ordered
  have hperm := hrepresents.instances_perm
  have hnil : tree.root.inOrder = [] ↔ bag.instances = [] := by
    rw [← List.length_eq_zero_iff, hperm.length_eq, List.length_eq_zero_iff]
  exact {
    contains := hrepresents.contains_eq
    occurrences := hrepresents.occurrences_eq
    length := hrepresents.length_eq
    nodeCount := by
      rw [hrepresents.nodeCount_eq, Tree.size_eq_length, hperm.length_eq, Bag.instances,
        List.length_map]
    min? := by
      intro least
      rw [BinarySearchTree.min?, Tree.min?_eq_head?, hincreasing.head?_eq_some_iff]
      simp only [hperm.mem_iff]
    max? := by
      intro greatest
      rw [BinarySearchTree.max?, Tree.max?_eq_getLast?, hincreasing.getLast?_eq_some_iff]
      simp only [hperm.mem_iff]
    ends_none := by
      rw [BinarySearchTree.min?, BinarySearchTree.max?, Tree.min?_eq_head?,
        Tree.max?_eq_getLast?, List.head?_eq_none_iff, List.getLast?_eq_none_iff]
      exact ⟨hnil, hnil⟩
    inOrder :=
      ⟨hperm, hincreasing, Tree.Walk.calls_start tree.root .inOrder hrepresents.nodeCount_eq⟩ }

/-- A new tree answers every run of calls as the bag does that it stands for, and agrees
with it afterwards, whatever the traversal order. -/
theorem empty_run_agrees (traversal : TraversalOrder) (calls : List (BagCall α)) :
    (Calls.run perform (empty traversal) calls).1 = (Calls.run Bag.perform .empty calls).1 ∧
      (Calls.run perform (empty traversal) calls).2.Agrees
        (Calls.run Bag.perform .empty calls).2 := by
  have hstep : ∀ (tree : BinarySearchTree α) (bag : Bag α) (call : BagCall α), True →
      tree.Represents bag → (tree.perform call).1 = (bag.perform call).1 ∧
        (tree.perform call).2.Represents (bag.perform call).2 :=
    fun tree bag call _ hrepresents => hrepresents.perform call
  obtain ⟨hanswers, hrepresents⟩ := Calls.run_agrees hstep calls _ _
    (represents_empty traversal) (Calls.throughout_of_forall (fun _ _ => trivial) calls _)
  exact ⟨hanswers, hrepresents.agrees⟩

/-- Calls in which a value with a repetition moves to the node of a removed one. -/
def movingCalls : List (BagCall Element) :=
  [.extend [.tagged 5 1, .tagged 2 1, .tagged 8 1, .tagged 7 1, .tagged 9 1, .tagged 7 2],
    .remove (.tagged 5 2), .remove (.tagged 4 1)]

theorem empty_run_agrees_movingCalls :
    Std.TransOrd Element ∧
      (Calls.run perform (empty .postOrder) movingCalls).1 = [none, some true, some false] ∧
      (Calls.run perform (empty .postOrder) movingCalls).2.contains (.tagged 5 1) = false ∧
      (Calls.run perform (empty .postOrder) movingCalls).2.occurrences (.tagged 7 3) = 2 ∧
      (Calls.run perform (empty .postOrder) movingCalls).2.length = 5 := by
  obtain ⟨hanswers, hagrees⟩ := empty_run_agrees .postOrder movingCalls
  exact ⟨inferInstance, hanswers, hagrees.contains _, hagrees.occurrences _, hagrees.length⟩

end BinarySearchTree

end Collections
