import Mathlib
import Collections.Proofs.SearchTree.MultisetRuns

/-!
# Counters of a search tree

A search tree with repetitions counts three things: its values, its nodes, and for some
values the repetitions beyond the node.  In every tree that calls lead to, the nodes are
ordered and counted, the table of repetitions speaks of values that have a node, and the
number of values is the number of nodes together with all repetitions.  So a removal lowers
a counter only where there is something to take away.
-/

namespace Collections

universe u

namespace BinarySearchTree

variable {α : Type u} [Ord α]

/-- A new tree, empty or of given values. -/
def Initial (tree : BinarySearchTree α) : Prop :=
  (∃ traversal, tree = empty traversal) ∨ ∃ values, tree = ofList values

/-- The trees that any calls lead to. -/
def Reachable (tree : BinarySearchTree α) : Prop :=
  Calls.Reachable Initial perform tree

theorem reachable_run (traversal : TraversalOrder) (calls : List (BagCall α)) :
    Reachable (Calls.run perform (empty traversal) calls).2 :=
  Calls.Reachable.run calls (.start (Or.inl ⟨traversal, rfl⟩))

/-- The nodes, the counters and the table of repetitions of a tree fit together. -/
structure Coherent (tree : BinarySearchTree α) : Prop where
  ordered : tree.root.Ordered
  nodeCount_eq : tree.nodeCount = tree.root.size
  /-- Only a value that has a node is repeated, and at least once. -/
  repeated : ∀ entry ∈ tree.repetitions.toList,
    1 ≤ entry.2 ∧ ∃ stored ∈ tree.root.inOrder, compare entry.1 stored = .eq
  length_eq : tree.length = tree.nodeCount + (tree.repetitions.toList.map Prod.snd).sum

/-- What a removal may answer and leave behind.  A counter is lowered only from a successor
to its predecessor, and a success comes with a node of the value. -/
inductive Removal (tree : BinarySearchTree α) (value : α) :
    Bool × BinarySearchTree α → Prop
  | repetition {stored : α} {extra length : Nat}
      (hstored : stored ∈ tree.root.inOrder) (hequal : compare value stored = .eq)
      (hextra : tree.repetitions[value]? = some (extra + 1))
      (hlength : tree.length = length + 1) :
      Removal tree value (true, { tree with
        length := length
        repetitions := if extra = 0 then tree.repetitions.erase value
          else recount tree.repetitions value extra })
  | node {stored : α} {rest : Tree α} {nodeCount length : Nat}
      (hstored : stored ∈ tree.root.inOrder) (hequal : compare value stored = .eq)
      (hsingle : tree.repetitions[value]? = none)
      (herase : tree.root.erase? value = some rest)
      (hnodeCount : tree.nodeCount = nodeCount + 1)
      (hlength : tree.length = length + 1) :
      Removal tree value (true, { tree with
        root := rest
        length := length
        nodeCount := nodeCount })
  | absent (habsent : ∀ stored ∈ tree.root.inOrder, compare value stored ≠ .eq) :
      Removal tree value (false, tree)

/-! ## The sum of all repetitions -/

section Sums

variable [Std.TransOrd α] {values : List α} {table : Std.TreeMap α Nat}

/-- The entry of a table that a value finds. -/
def entryIn (table : Std.TreeMap α Nat) (value : α) : Option (α × Nat) :=
  table.toList.find? (compare ·.1 value == .eq)

theorem entryIn_eq_some_iff {value : α} {entry : α × Nat} :
    entryIn table value = some entry ↔
      table.getKey? value = some entry.1 ∧ table[value]? = some entry.2 :=
  Std.TreeMap.find?_toList_eq_some_iff_getKey?_eq_some_and_getElem?_eq_some

omit [Std.TransOrd α] in
theorem compare_of_entryIn {value : α} {entry : α × Nat}
    (hentry : entryIn table value = some entry) : compare entry.1 value = .eq := by
  have hfound := List.find?_some hentry
  exact eq_of_beq hfound

theorem map_snd_entryIn (table : Std.TreeMap α Nat) (value : α) :
    ((entryIn table value).map Prod.snd).getD 0 = table.getD value 0 := by
  rw [Std.TreeMap.getD_eq_getD_getElem?]
  congr 1
  cases hentry : entryIn table value with
  | none =>
      have habsent : value ∉ table := Std.TreeMap.find?_toList_eq_none_iff_not_mem.mp hentry
      exact (Std.TreeMap.getElem?_eq_none habsent).symm
  | some entry => exact (entryIn_eq_some_iff.mp hentry).2.symm

/-- Values that are different from each other and know all keys find all entries, each of
them once. -/
theorem filterMap_entryIn_perm (hvalues : Tree.Increasing values)
    (hkeys : ∀ entry ∈ table.toList, ∃ value ∈ values, compare entry.1 value = .eq) :
    (values.filterMap (entryIn table)).Perm table.toList := by
  have hfound : (values.filterMap (entryIn table)).Nodup := by
    apply hvalues.filterMap
    intro first second hless entry hfirst other hsecond heq
    have hequal := Std.TransCmp.eq_trans
      (Std.OrientedCmp.eq_symm (compare_of_entryIn hfirst)) (heq ▸ compare_of_entryIn hsecond)
    rw [hless] at hequal
    exact absurd hequal (by decide)
  have hstored : table.toList.Nodup := by
    apply Std.TreeMap.distinct_keys_toList.imp
    intro first second hdifferent heq
    exact hdifferent (heq ▸ Std.ReflCmp.compare_self)
  rw [List.perm_ext_iff_of_nodup hfound hstored]
  intro entry
  rw [List.mem_filterMap, Std.TreeMap.mem_toList_iff_getKey?_eq_some_and_getElem?_eq_some]
  constructor
  · intro hentry
    obtain ⟨value, -, hvalue⟩ := hentry
    have hequal := compare_of_entryIn hvalue
    rw [Std.TreeMap.getKey?_congr hequal, Std.TreeMap.getElem?_congr hequal]
    exact entryIn_eq_some_iff.mp hvalue
  · intro hentry
    obtain ⟨value, hvalue, hequal⟩ := hkeys entry
      (Std.TreeMap.mem_toList_iff_getKey?_eq_some_and_getElem?_eq_some.mpr hentry)
    rw [Std.TreeMap.getKey?_congr hequal, Std.TreeMap.getElem?_congr hequal] at hentry
    exact ⟨value, hvalue, entryIn_eq_some_iff.mpr hentry⟩

omit [Ord α] [Std.TransOrd α] in
theorem sum_map_snd_filterMap (choose : α → Option (α × Nat)) (values : List α) :
    ((values.filterMap choose).map Prod.snd).sum =
      (values.map fun value => ((choose value).map Prod.snd).getD 0).sum := by
  induction values with
  | nil => rfl
  | cons value values ih =>
      rw [List.filterMap_cons, List.map_cons, List.sum_cons, ← ih]
      cases choose value with
      | none => exact (Nat.zero_add _).symm
      | some entry => rfl

/-- All repetitions are counted at the values that know their keys. -/
theorem sum_getD_eq (hvalues : Tree.Increasing values)
    (hkeys : ∀ entry ∈ table.toList, ∃ value ∈ values, compare entry.1 value = .eq) :
    (values.map fun value => table.getD value 0).sum = (table.toList.map Prod.snd).sum := by
  calc
    (values.map fun value => table.getD value 0).sum =
        ((values.filterMap (entryIn table)).map Prod.snd).sum := by
      rw [sum_map_snd_filterMap]
      simp only [map_snd_entryIn]
    _ = (table.toList.map Prod.snd).sum :=
      ((filterMap_entryIn_perm hvalues hkeys).map Prod.snd).sum_eq

end Sums

/-! ## Coherence -/

variable [Std.TransOrd α] {tree : BinarySearchTree α} {bag : Bag α}

omit [Std.TransOrd α] in
theorem Represents.size_eq (hrepresents : tree.Represents bag) :
    bag.size = tree.nodeCount + (tree.root.inOrder.map (tree.repetitions.getD · 0)).sum := by
  have hsum : (tree.root.inOrder.map fun stored => (tree.entryOf stored).2).sum =
      tree.root.inOrder.length + (tree.root.inOrder.map (tree.repetitions.getD · 0)).sum := by
    simp only [entryOf, List.sum_map_add, List.map_const', List.sum_replicate, smul_eq_mul, mul_one]
  calc
    bag.size = (tree.entries.map Prod.snd).sum :=
      (hrepresents.entries_perm.map Prod.snd).sum_eq.symm
    _ = (tree.root.inOrder.map fun stored => (tree.entryOf stored).2).sum := by
      rw [entries, List.map_map]
      rfl
    _ = _ := by
      rw [hsum, hrepresents.nodeCount_eq, Tree.size_eq_length]

theorem Represents.coherent (hrepresents : tree.Represents bag) : tree.Coherent := by
  have hrepeated : ∀ entry ∈ tree.repetitions.toList,
      1 ≤ entry.2 ∧ ∃ stored ∈ tree.root.inOrder, compare entry.1 stored = .eq := by
    intro entry hentry
    rw [Std.TreeMap.mem_toList_iff_getKey?_eq_some_and_getElem?_eq_some] at hentry
    obtain ⟨hpositive, hcontains⟩ := hrepresents.repeated entry.1 entry.2 hentry.2
    exact ⟨hpositive, (hrepresents.ordered.contains_iff entry.1).mp hcontains⟩
  exact {
    ordered := hrepresents.ordered
    nodeCount_eq := hrepresents.nodeCount_eq
    repeated := hrepeated
    length_eq := by
      have hincreasing := (Tree.ordered_iff_increasing _).mp hrepresents.ordered
      rw [hrepresents.length_eq, hrepresents.size_eq,
        sum_getD_eq hincreasing fun entry hentry => (hrepeated entry hentry).2] }

/-! ## Removals -/

/-- A value of the tree is counted. -/
theorem Represents.length_pos (hrepresents : tree.Represents bag) {value : α}
    (hcontains : tree.contains value = true) : ∃ length, tree.length = length + 1 := by
  obtain ⟨entry, hfound⟩ :=
    Option.ne_none_iff_exists'.mp (hrepresents.find?_ne_none hcontains)
  exact ⟨(bag.remove value).size, by rw [hrepresents.length_eq, Bag.size_remove hfound]⟩

theorem Represents.removal (hrepresents : tree.Represents bag) (value : α) :
    tree.Removal value (tree.remove value) := by
  cases hextra : tree.repetitions[value]? with
  | some extra =>
      obtain ⟨hpositive, hcontains⟩ := hrepresents.repeated value extra hextra
      obtain ⟨stored, hstored, hequal⟩ :=
        (hrepresents.ordered.contains_iff value).mp hcontains
      obtain ⟨length, hlength⟩ := hrepresents.length_pos hcontains
      obtain ⟨fewer, rfl⟩ := Nat.exists_eq_succ_of_ne_zero (Nat.ne_of_gt hpositive)
      rw [remove_of_repeated hextra, hlength]
      exact .repetition hstored hequal hextra hlength
  | none =>
      cases herase : tree.root.erase? value with
      | some rest =>
          obtain ⟨front, erased, back, hbefore, -, hequal⟩ := Tree.inOrder_of_erase? herase
          have hstored : erased ∈ tree.root.inOrder := by
            rw [hbefore]
            exact List.mem_append_right front List.mem_cons_self
          obtain ⟨length, hlength⟩ := hrepresents.length_pos
            ((hrepresents.ordered.contains_iff value).mpr ⟨erased, hstored, hequal⟩)
          have hnodeCount : tree.nodeCount = (front ++ back).length + 1 := by
            rw [hrepresents.nodeCount_eq, Tree.size_eq_length, hbefore,
              List.perm_middle.length_eq, List.length_cons]
          rw [remove_of_erase? hextra herase, hlength, hnodeCount]
          exact .node hstored hequal hextra herase hnodeCount hlength
      | none =>
          have habsent := (Tree.erase?_eq_none_iff _ _).mp herase
          rw [remove_of_erase?_none hextra herase]
          apply Removal.absent
          intro stored hstored hequal
          have hcontains := (hrepresents.ordered.contains_iff value).mpr
            ⟨stored, hstored, hequal⟩
          rw [habsent] at hcontains
          exact absurd hcontains Bool.false_ne_true

/-! ## Reachable trees -/

theorem Initial.represents (hinitial : tree.Initial) : ∃ bag, tree.Represents bag := by
  rcases hinitial with ⟨traversal, rfl⟩ | ⟨values, rfl⟩
  · exact ⟨.empty, represents_empty traversal⟩
  · exact ⟨_, Represents.extend values (represents_empty .inOrder)⟩

theorem Reachable.represents (hreached : tree.Reachable) : ∃ bag, tree.Represents bag := by
  apply Calls.Reachable.invariant _ _ hreached
  · exact fun tree hinitial => hinitial.represents
  · intro tree call hrepresents
    obtain ⟨bag, hbag⟩ := hrepresents
    exact ⟨_, (hbag.perform call).2⟩

/-- The nodes and counters of a tree always fit together, a removal succeeds exactly for a
value that has a node, and it never lowers a counter that is zero. -/
theorem Reachable.coherent_removal (hreached : tree.Reachable) :
    tree.Coherent ∧ ∀ value,
      ((tree.remove value).1 = true ↔
        ∃ stored ∈ tree.root.inOrder, compare value stored = .eq) ∧
      tree.Removal value (tree.remove value) := by
  obtain ⟨bag, hrepresents⟩ := hreached.represents
  refine ⟨hrepresents.coherent, fun value => ⟨?_, hrepresents.removal value⟩⟩
  rw [(hrepresents.remove value).1, ← hrepresents.contains_eq]
  exact hrepresents.ordered.contains_iff value

/-- Calls that use up a repetition and move a repeated value to the node of a removed one. -/
def repeatingCalls : List (BagCall Element) :=
  [.extend [.tagged 5 1, .tagged 2 1, .tagged 8 1, .tagged 7 1, .tagged 7 2, .tagged 2 2],
    .remove (.tagged 2 3), .remove (.tagged 5 2)]

theorem coherent_removal_repeatingCalls :
    ∃ tree : BinarySearchTree Element, tree.Reachable ∧ tree.length = 4 ∧ tree.nodeCount = 3 ∧
      tree.toListIn .preOrder = [.tagged 7 1, .tagged 2 1, .tagged 8 1] ∧
      tree.Coherent ∧ ∀ value,
        ((tree.remove value).1 = true ↔
          ∃ stored ∈ tree.root.inOrder, compare value stored = .eq) ∧
        tree.Removal value (tree.remove value) := by
  have hreached : Reachable (Calls.run perform (empty .preOrder) repeatingCalls).2 :=
    Calls.Reachable.run repeatingCalls (.start (Or.inl ⟨.preOrder, rfl⟩))
  exact ⟨_, hreached, by cbv, by cbv, by cbv, hreached.coherent_removal⟩

end BinarySearchTree

end Collections
