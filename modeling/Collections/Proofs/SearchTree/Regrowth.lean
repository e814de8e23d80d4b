import Mathlib
import Collections.Proofs.SearchTree.Counters
import Collections.Proofs.SearchTree.TreeWalk

/-!
# Trees that grow again

A value that is not in a tree makes a new leaf, and nothing else of the tree changes.  So what
was added last is taken out without a trace, and the values of one subtree can be added without
disturbing the other: if each node comes before the nodes below it, the values of a tree rebuild
it from nothing.
-/

namespace Collections

universe u

namespace Tree

variable {α : Type u} [Ord α]

/-- Values that are inserted one after the other make a new leaf each, and so one tree grows into
another. -/
inductive Grows : Tree α → List α → Tree α → Prop
  | done (tree : Tree α) : Grows tree [] tree
  | leaf {tree next grown : Tree α} {value : α} {values : List α}
      (hinsert : tree.insert? value = some next) (hgrows : Grows next values grown) :
      Grows tree (value :: values) grown

/-! ## Growing -/

section Growing

variable {tree middle grown left right : Tree α} {value : α} {values earlier later : List α}

theorem Grows.append (hearlier : Grows tree earlier middle) (hlater : Grows middle later grown) :
    Grows tree (earlier ++ later) grown := by
  induction hearlier with
  | done => exact hlater
  | leaf hinsert _ ih => exact .leaf hinsert (ih hlater)

/-- Smaller values grow in the left subtree and leave the right one alone. -/
theorem Grows.node_left (hgrows : Grows left values grown)
    (hsmaller : ∀ smaller ∈ values, compare smaller value = .lt) :
    Grows (node left value right) values (node grown value right) := by
  induction hgrows with
  | done => exact .done _
  | leaf hinsert _ ih =>
      obtain ⟨hfirst, hothers⟩ := List.forall_mem_cons.mp hsmaller
      refine .leaf ?_ (ih hothers)
      rw [insert?, hfirst]
      dsimp only
      rw [hinsert, Option.map_some]

/-- Greater values grow in the right subtree and leave the left one alone. -/
theorem Grows.node_right (hgrows : Grows right values grown)
    (hgreater : ∀ greater ∈ values, compare greater value = .gt) :
    Grows (node left value right) values (node left value grown) := by
  induction hgrows with
  | done => exact .done _
  | leaf hinsert _ ih =>
      obtain ⟨hfirst, hothers⟩ := List.forall_mem_cons.mp hgreater
      refine .leaf ?_ (ih hothers)
      rw [insert?, hfirst]
      dsimp only
      rw [hinsert, Option.map_some]

end Growing

variable [Std.TransOrd α]

/-- A node grows first and then its subtrees, in either order. -/
theorem Ordered.grows_node {left right : Tree α} {value : α} {smaller greater : List α}
    (hordered : (node left value right).Ordered)
    (hleft : Grows leaf smaller left) (hright : Grows leaf greater right)
    (hsmaller : smaller.Perm left.inOrder) (hgreater : greater.Perm right.inOrder) :
    Grows leaf (value :: (smaller ++ greater)) (node left value right) ∧
      Grows leaf (value :: (greater ++ smaller)) (node left value right) := by
  obtain ⟨-, -, hbefore, hafter⟩ := hordered
  have hless : ∀ other ∈ smaller, compare other value = .lt :=
    fun other hother => hbefore other (hsmaller.mem_iff.mp hother)
  have hmore : ∀ other ∈ greater, compare other value = .gt :=
    fun other hother => Std.OrientedCmp.gt_of_lt (hafter other (hgreater.mem_iff.mp hother))
  have hroot : (leaf : Tree α).insert? value = some (node leaf value leaf) := rfl
  exact ⟨.leaf hroot ((hleft.node_left hless).append (hright.node_right hmore)),
    .leaf hroot ((hright.node_right hmore).append (hleft.node_left hless))⟩

/-- In pre-order each node comes before its left subtree, and that before the right one. -/
theorem Ordered.grows_preOrder {tree : Tree α} (hordered : tree.Ordered) :
    Grows leaf tree.preOrder tree := by
  induction tree with
  | leaf => exact .done _
  | node left value right ihLeft ihRight =>
      exact (hordered.grows_node (ihLeft hordered.1) (ihRight hordered.2.1)
        (left.traverse_perm .preOrder) (right.traverse_perm .preOrder)).1

/-- In reverse post-order each node comes before its right subtree, and that before the left
one. -/
theorem Ordered.grows_reverse_postOrder {tree : Tree α} (hordered : tree.Ordered) :
    Grows leaf tree.postOrder.reverse tree := by
  induction tree with
  | leaf => exact .done _
  | node left value right ihLeft ihRight =>
      have hgrows := (hordered.grows_node (ihLeft hordered.1) (ihRight hordered.2.1)
        ((List.reverse_perm _).trans (left.traverse_perm .postOrder))
        ((List.reverse_perm _).trans (right.traverse_perm .postOrder))).2
      rwa [postOrder, List.reverse_append, List.reverse_append, List.reverse_singleton,
        List.singleton_append]

/-! ## Growing back -/

/-- A new leaf is found again and taken away without a trace. -/
theorem erase?_of_insert? {tree grown : Tree α} {added unwanted : α}
    (hinsert : tree.insert? added = some grown) (hequal : compare unwanted added = .eq) :
    grown.erase? unwanted = some tree := by
  induction tree generalizing grown with
  | leaf =>
      rw [insert?] at hinsert
      obtain rfl := Option.some.inj hinsert
      rw [erase?, hequal]
      rfl
  | node left value right ihLeft ihRight =>
      -- The removal compares as the insertion did, so it takes the same path.
      have hpath : compare unwanted value = compare added value :=
        Std.TransCmp.congr_left hequal
      rw [insert?] at hinsert
      cases hcompare : compare added value with
      | lt =>
          rw [hcompare] at hinsert
          obtain ⟨deeper, hdeeper, rfl⟩ := Option.map_eq_some_iff.mp hinsert
          rw [erase?, hpath, hcompare]
          dsimp only
          rw [ihLeft hdeeper, Option.map_some]
      | gt =>
          rw [hcompare] at hinsert
          obtain ⟨deeper, hdeeper, rfl⟩ := Option.map_eq_some_iff.mp hinsert
          rw [erase?, hpath, hcompare]
          dsimp only
          rw [ihRight hdeeper, Option.map_some]
      | eq =>
          rw [hcompare] at hinsert
          simp at hinsert

end Tree

namespace BinarySearchTree

variable {α : Type u} [Ord α] {tree : BinarySearchTree α}

/-- Values that are added one by one to an empty tree, whatever its traversal order, give the
nodes of a tree again. -/
structure RebuiltFrom (tree : BinarySearchTree α) (values : List α) : Prop where
  root_eq : ∀ traversal, ((empty traversal).extend values).root = tree.root
  toListIn_eq : ∀ traversal order,
    ((empty traversal).extend values).toListIn order = tree.toListIn order
  walkIn_eq : ∀ traversal order,
    ((empty traversal).extend values).walkIn order = tree.walkIn order
  height_eq : ∀ traversal, ((empty traversal).extend values).height = tree.height
  /-- Each value is there once. -/
  length_eq : ∀ traversal, ((empty traversal).extend values).length = tree.nodeCount
  occurrences_eq : ∀ traversal value,
    ((empty traversal).extend values).occurrences value = if tree.contains value then 1 else 0

/-- A tree is as another one was, for all that can be seen of it. -/
structure Restored (tree after : BinarySearchTree α) : Prop where
  root_eq : after.root = tree.root
  length_eq : after.length = tree.length
  nodeCount_eq : after.nodeCount = tree.nodeCount
  traversal_eq : after.traversal = tree.traversal
  repetitions_eq : ∀ value : α, after.repetitions[value]? = tree.repetitions[value]?
  height_eq : after.height = tree.height
  occurrences_eq : ∀ value, after.occurrences value = tree.occurrences value

/-! ## Rebuilding -/

/-- Values that make a new leaf each are counted as nodes and never as repetitions. -/
theorem extend_of_grows {values : List α} {before grown : Tree α}
    (hgrows : Tree.Grows before values grown) :
    ∀ tree : BinarySearchTree α, tree.root = before →
      tree.extend values = { tree with
        root := grown
        length := tree.length + values.length
        nodeCount := tree.nodeCount + values.length } := by
  induction hgrows with
  | done => exact fun tree hroot => by rw [← hroot]; rfl
  | @leaf start next grown value values hinsert _ ih =>
      intro tree hroot
      have hadd := add_of_insert? (hroot ▸ hinsert)
      have hcount : ∀ count : Nat, count + 1 + values.length = count + (value :: values).length :=
        fun count => Nat.add_right_comm count 1 values.length
      change (tree.add value).extend values = _
      rw [ih (tree.add value) (by rw [hadd]), hadd]
      simp only [hcount]

variable [Std.TransOrd α]

/-- Values that let the nodes of a tree grow rebuild the tree without its repetitions. -/
theorem rebuiltFrom_of_grows {values : List α} (hgrows : Tree.Grows .leaf values tree.root)
    (hcount : values.length = tree.nodeCount) : tree.RebuiltFrom values := by
  have hrebuilt : ∀ traversal, (empty traversal).extend values =
      ⟨tree.root, tree.nodeCount, tree.nodeCount, ∅, traversal⟩ := by
    intro traversal
    rw [extend_of_grows hgrows (empty traversal) rfl, ← hcount, empty, Nat.zero_add]
  exact {
    root_eq := fun traversal => by rw [hrebuilt]
    toListIn_eq := fun traversal order => by rw [hrebuilt]; rfl
    walkIn_eq := fun traversal order => by rw [hrebuilt]; rfl
    height_eq := fun traversal => by rw [hrebuilt]; rfl
    length_eq := fun traversal => by rw [hrebuilt]
    occurrences_eq := by
      intro traversal value
      rw [hrebuilt, occurrences]
      dsimp only
      rw [Std.TreeMap.getD_emptyc]
      rfl }

/-- A tree is rebuilt by the values that its walk in pre-order yields, and by those of its walk
in post-order, taken in reverse. -/
theorem Reachable.rebuilt (hreached : tree.Reachable) {calls : Nat}
    (hcalls : tree.nodeCount ≤ calls) :
    tree.RebuiltFrom (Cursor.yielded calls (tree.walkIn .preOrder)) ∧
      tree.RebuiltFrom (Cursor.yielded calls (tree.walkIn .postOrder)).reverse := by
  obtain ⟨bag, hrepresents⟩ := hreached.represents
  have hyielded : ∀ order,
      Cursor.yielded calls (tree.walkIn order) = tree.root.traverse order :=
    fun order => Tree.Walk.yielded_start tree.root order hrepresents.nodeCount_eq hcalls
  have hlength : ∀ order, (tree.root.traverse order).length = tree.nodeCount :=
    fun order => (tree.root.length_traverse order).trans hrepresents.nodeCount_eq.symm
  rw [hyielded, hyielded]
  constructor
  · exact rebuiltFrom_of_grows hrepresents.ordered.grows_preOrder (hlength .preOrder)
  · apply rebuiltFrom_of_grows hrepresents.ordered.grows_reverse_postOrder
    rw [List.length_reverse]
    exact hlength .postOrder

/-- Calls that remove a node with two subtrees, so that its successor stands in its place. -/
def regrownCalls : List (BagCall Element) :=
  [.extend [.tagged 5 1, .tagged 3 1, .tagged 9 1, .tagged 7 1, .tagged 8 1, .tagged 3 2],
    .remove (.tagged 5 2)]

theorem rebuilt_regrownCalls :
    ∃ tree : BinarySearchTree Element, tree.Reachable ∧ tree.nodeCount ≤ 7 ∧
      Cursor.yielded 7 (tree.walkIn .preOrder) =
        [.tagged 7 1, .tagged 3 1, .tagged 9 1, .tagged 8 1] ∧
      tree.RebuiltFrom (Cursor.yielded 7 (tree.walkIn .preOrder)) ∧
      tree.RebuiltFrom (Cursor.yielded 7 (tree.walkIn .postOrder)).reverse := by
  have hreached := reachable_run .inOrder regrownCalls
  have hcalls : (Calls.run perform (empty .inOrder) regrownCalls).2.nodeCount ≤ 7 := by
    have hcount : (Calls.run perform (empty .inOrder) regrownCalls).2.nodeCount = 4 := by cbv
    omega
  exact ⟨_, hreached, hcalls, by cbv, hreached.rebuilt hcalls⟩

/-! ## Adding and removing -/

/-- Trees with the same nodes and counters show the same if they count the same repetitions. -/
theorem Restored.of_repetitions {after : BinarySearchTree α} (hroot : after.root = tree.root)
    (hlength : after.length = tree.length) (hnodeCount : after.nodeCount = tree.nodeCount)
    (htraversal : after.traversal = tree.traversal)
    (hrepetitions : ∀ value : α, after.repetitions[value]? = tree.repetitions[value]?) :
    tree.Restored after where
  root_eq := hroot
  length_eq := hlength
  nodeCount_eq := hnodeCount
  traversal_eq := htraversal
  repetitions_eq := hrepetitions
  height_eq := by rw [height, height, hroot]
  occurrences_eq := by
    intro value
    rw [occurrences, occurrences, contains, contains, hroot, Std.TreeMap.getD_eq_getD_getElem?,
      Std.TreeMap.getD_eq_getD_getElem?, hrepetitions]

/-- A value that is not in the tree gets a leaf, which the removal takes away. -/
theorem Represents.restored_of_absent {bag : Bag α} (hrepresents : tree.Represents bag)
    {value other : α} {grown : Tree α} (hinsert : tree.root.insert? value = some grown)
    (hequal : compare other value = .eq) : ((tree.add value).remove other).1 = true ∧
      tree.Restored ((tree.add value).remove other).2 := by
  have habsent : tree.contains other = false :=
    (tree.root.contains_congr hequal).trans (Tree.contains_of_insert? hinsert)
  have hadd := add_of_insert? hinsert
  have hsingle : (tree.add value).repetitions[other]? = none := by
    rw [hadd]
    exact hrepresents.single_of_absent habsent
  have herase : (tree.add value).root.erase? other = some tree.root := by
    rw [hadd]
    exact Tree.erase?_of_insert? hinsert hequal
  rw [remove_of_erase? hsingle herase, hadd]
  exact ⟨rfl, .of_repetitions rfl rfl rfl rfl fun _ => rfl⟩

/-- A repetition that is counted and then counted back leaves the table as it was. -/
theorem getElem?_oneLess_recount {table : Std.TreeMap α Nat} {value other : α}
    (hpositive : ∀ extra, table[value]? = some extra → 0 < extra)
    (hequal : compare other value = .eq) (asked : α) :
    (oneLess (recount table value (table.getD value 0 + 1)) other
      (table.getD value 0 + 1))[asked]? = table[asked]? := by
  rw [getElem?_oneLess, Nat.add_sub_cancel, getElem?_recount]
  by_cases hasked : compare other asked = .eq
  · have hvalue := Std.TransCmp.eq_trans (Std.OrientedCmp.eq_symm hequal) hasked
    rw [if_pos hasked, ← Std.TreeMap.getElem?_congr hvalue, Std.TreeMap.getD_eq_getD_getElem?]
    cases hextra : table[value]? with
    | none => rfl
    | some extra =>
        rw [Option.getD_some]
        exact if_neg (Nat.ne_of_gt (hpositive extra hextra))
  · have hdifferent : compare value asked ≠ .eq :=
      fun hvalue => hasked (Std.TransCmp.eq_trans hequal hvalue)
    rw [if_neg hasked, if_neg hdifferent]

/-- A value that is in the tree is counted once more, and the removal counts it back. -/
theorem Represents.restored_of_present {bag : Bag α} (hrepresents : tree.Represents bag)
    {value other : α} (hinsert : tree.root.insert? value = none)
    (hequal : compare other value = .eq) : ((tree.add value).remove other).1 = true ∧
      tree.Restored ((tree.add value).remove other).2 := by
  have hadd := add_of_insert?_none hinsert
  have hextra : (tree.add value).repetitions[other]? =
      some (tree.repetitions.getD value 0 + 1) := by
    rw [hadd, getElem?_recount, if_pos (Std.OrientedCmp.eq_symm hequal)]
  rw [remove_of_repeated hextra, hadd]
  refine ⟨rfl, .of_repetitions rfl rfl rfl rfl ?_⟩
  apply getElem?_oneLess_recount _ hequal
  exact fun extra hstored => (hrepresents.repeated value extra hstored).1

/-- What was added last is taken out by any value equal to it, and the tree is what it was. -/
theorem Reachable.remove_add (hreached : tree.Reachable) {value other : α}
    (hequal : compare other value = .eq) : ((tree.add value).remove other).1 = true ∧
      tree.Restored ((tree.add value).remove other).2 := by
  obtain ⟨bag, hrepresents⟩ := hreached.represents
  cases hinsert : tree.root.insert? value with
  | some grown => exact hrepresents.restored_of_absent hinsert hequal
  | none => exact hrepresents.restored_of_present hinsert hequal

/-- A value that is not in the tree, one that is there once, and one that is repeated. -/
theorem remove_add_regrownCalls :
    ∃ tree : BinarySearchTree Element, tree.Reachable ∧
      (tree.occurrences (.tagged 5 8), tree.occurrences (.tagged 8 8),
        tree.occurrences (.tagged 3 8)) = (0, 1, 2) ∧
      ∀ key : Int64,
        ((tree.add (.tagged key 8)).remove (.tagged key 9)).1 = true ∧
          tree.Restored ((tree.add (.tagged key 8)).remove (.tagged key 9)).2 := by
  have hreached := reachable_run .inOrder regrownCalls
  refine ⟨_, hreached, by cbv, ?_⟩
  intro key
  have hequal : compare (Element.tagged key 9) (Element.tagged key 8) = .eq :=
    (Element.beq_iff_compare_eq _ _).mp (beq_self_eq_true key)
  exact hreached.remove_add hequal

end BinarySearchTree

end Collections
