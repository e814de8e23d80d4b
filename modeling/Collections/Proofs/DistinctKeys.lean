import Mathlib
import Std.Data.HashMap

/-!
# Entries with different keys

Lists of entries in which no two keys are equal, as the entries of a hash map are in
whatever order they are listed.  A key finds at most one entry, and taking out its entry
is filtering.
-/

namespace Collections

universe u v

variable {κ : Type u} {ν : Type v} [BEq κ]

/-- No two entries have equal keys. -/
def DistinctKeys (entries : List (κ × ν)) : Prop :=
  entries.Pairwise fun first second => ¬ (first.1 == second.1) = true

theorem distinctKeys_iff {entries : List (κ × ν)} :
    DistinctKeys entries ↔
      (entries.map Prod.fst).Pairwise fun first second => ¬ (first == second) = true := by
  rw [DistinctKeys, List.pairwise_map]

section Lists

variable [EquivBEq κ] {entries front back : List (κ × ν)} {entry : κ × ν} {key : κ}

theorem DistinctKeys.nodup (hdistinct : DistinctKeys entries) : entries.Nodup := by
  apply List.Pairwise.imp _ hdistinct
  intro first second hkeys hequal
  exact hkeys (by rw [hequal, BEq.rfl])

theorem unequal_of_split (hdistinct : DistinctKeys (front ++ entry :: back))
    (hkey : (entry.1 == key) = true) :
    (∀ other ∈ front, ¬ (other.1 == key) = true) ∧
      ∀ other ∈ back, ¬ (other.1 == key) = true := by
  obtain ⟨-, hlater, hacross⟩ := List.pairwise_append.mp hdistinct
  constructor
  · intro other hother hequal
    exact hacross other hother entry List.mem_cons_self (BEq.trans hequal (BEq.symm hkey))
  · intro other hother hequal
    exact (List.pairwise_cons.mp hlater).1 other hother (BEq.trans hkey (BEq.symm hequal))

/-- The key of an entry finds it, and filtering by the key leaves all other entries. -/
theorem find?_and_filter_of_split (hdistinct : DistinctKeys (front ++ entry :: back))
    (hkey : (entry.1 == key) = true) :
    (front ++ entry :: back).find? (fun other => other.1 == key) = some entry ∧
      (front ++ entry :: back).filter (fun other => !(other.1 == key)) = front ++ back := by
  obtain ⟨hfront, hback⟩ := unequal_of_split hdistinct hkey
  constructor
  · rw [List.find?_append, List.find?_eq_none.mpr hfront, Option.none_or]
    exact List.find?_cons_of_pos hkey
  · rw [List.filter_append, List.filter_cons_of_neg (by simp [hkey]),
      List.filter_eq_self.mpr fun other hother => by simpa using hfront other hother,
      List.filter_eq_self.mpr fun other hother => by simpa using hback other hother]

theorem DistinctKeys.find?_eq_some_iff (hdistinct : DistinctKeys entries) :
    entries.find? (fun other => other.1 == key) = some entry ↔
      entry ∈ entries ∧ (entry.1 == key) = true := by
  constructor
  · intro hfound
    have hkey := List.find?_some hfound
    exact ⟨List.mem_of_find?_eq_some hfound, hkey⟩
  · intro hmem
    obtain ⟨front, back, hsplit⟩ := List.append_of_mem hmem.1
    subst hsplit
    exact (find?_and_filter_of_split hdistinct hmem.2).1

/-- Taking out the first entry with a key takes out all of them. -/
theorem DistinctKeys.eraseP_eq_filter (hdistinct : DistinctKeys entries) :
    entries.eraseP (fun other => other.1 == key) =
      entries.filter fun other => !(other.1 == key) := by
  induction entries with
  | nil => rfl
  | cons head rest ih =>
      obtain ⟨hhead, hrest⟩ := List.pairwise_cons.mp hdistinct
      rw [List.eraseP_cons, List.filter_cons]
      cases hkey : head.1 == key with
      | true =>
          symm
          apply List.filter_eq_self.mpr
          intro other hother
          rw [Bool.not_eq_true', Bool.eq_false_iff]
          exact fun hequal => hhead other hother (BEq.trans hkey (BEq.symm hequal))
      | false => exact congrArg (List.cons head) (ih hrest)

theorem DistinctKeys.length_filter (hdistinct : DistinctKeys entries) (hentry : entry ∈ entries)
    (hkey : (entry.1 == key) = true) :
    (entries.filter fun other => !(other.1 == key)).length + 1 = entries.length := by
  obtain ⟨front, back, hsplit⟩ := List.append_of_mem hentry
  subst hsplit
  rw [(find?_and_filter_of_split hdistinct hkey).2, List.length_append, List.length_append,
    List.length_cons]
  rfl

/-- A sum over the entries, with the entry of one key apart. -/
theorem DistinctKeys.sum_eq_add (hdistinct : DistinctKeys entries) (hentry : entry ∈ entries)
    (hkey : (entry.1 == key) = true) (measure : κ × ν → Nat) :
    (entries.map measure).sum =
      measure entry + ((entries.filter fun other => !(other.1 == key)).map measure).sum := by
  obtain ⟨front, back, hsplit⟩ := List.append_of_mem hentry
  subst hsplit
  rw [(find?_and_filter_of_split hdistinct hkey).2, List.map_append, List.map_append,
    List.sum_append, List.sum_append, List.map_cons, List.sum_cons]
  exact Nat.add_left_comm _ _ _

end Lists

/-! ## Hash maps -/

section Maps

variable [Hashable κ] (entries : Std.HashMap κ ν)

/-- The values are listed in the order of the entries. -/
theorem values_eq_map_toList : entries.values = entries.toList.map Prod.snd := by
  have hvalues : entries.values = entries.inner.inner.values := rfl
  have hentries : entries.toList = Std.DHashMap.Raw.Const.toList entries.inner.inner := rfl
  rw [hvalues, hentries, Std.DHashMap.Internal.Raw.values_eq_values_toListModel,
    Std.DHashMap.Internal.Raw.Const.toList_eq_toListModel_map,
    Std.Internal.List.values_eq_map, List.map_map]
  rfl

variable [EquivBEq κ] [LawfulHashable κ]

theorem distinctKeys_toList : DistinctKeys entries.toList := by
  apply List.Pairwise.imp _ Std.HashMap.distinct_keys_toList
  intro first second hkeys
  exact Bool.eq_false_iff.mp hkeys

/-- The entries that are left without a key. -/
theorem toList_erase_perm (key : κ) :
    (entries.erase key).toList.Perm
      (entries.toList.filter fun entry => !(entry.1 == key)) := by
  rw [List.perm_ext_iff_of_nodup (distinctKeys_toList _).nodup
    ((distinctKeys_toList entries).nodup.filter _)]
  intro ⟨other, value⟩
  rw [List.mem_filter, Std.HashMap.mem_toList_iff_getKey?_eq_some_and_getElem?_eq_some,
    Std.HashMap.mem_toList_iff_getKey?_eq_some_and_getElem?_eq_some, Std.HashMap.getKey?_erase,
    Std.HashMap.getElem?_erase, BEq.comm]
  cases other == key <;> simp

theorem toList_insert_perm_erase (key : κ) (value : ν) :
    (entries.insert key value).toList.Perm ((key, value) :: (entries.erase key).toList) := by
  apply Std.HashMap.toList_insert_perm.trans
  apply List.Perm.cons
  apply List.Perm.trans _ (toList_erase_perm entries key).symm
  apply List.Perm.of_eq
  apply List.filter_congr
  intro entry _
  rw [BEq.comm]
  cases entry.1 == key <;> rfl

omit [EquivBEq κ] [LawfulHashable κ] in
theorem fold_add_eq_sum (measure : ν → Nat) :
    entries.fold (fun sum _ value => sum + measure value) 0 =
      (entries.toList.map fun entry => measure entry.2).sum := by
  rw [Std.HashMap.fold_eq_foldl_toList, List.sum_eq_foldl, List.foldl_map]

/-- A sum over the values, with the value of one key apart. -/
theorem sum_toList_eq_add (key : κ) (measure : ν → Nat) :
    (entries.toList.map fun entry => measure entry.2).sum =
      (entries[key]?.map measure).getD 0 +
        ((entries.erase key).toList.map fun entry => measure entry.2).sum := by
  rw [((toList_erase_perm entries key).map _).sum_eq]
  cases hvalue : entries[key]? with
  | none =>
      rw [Option.map_none, Option.getD_none, Nat.zero_add]
      congr 2
      symm
      apply List.filter_eq_self.mpr
      intro entry hentry
      have habsent : key ∉ entries := by
        rw [Std.HashMap.mem_iff_isSome_getElem?, hvalue]
        exact Bool.false_ne_true
      rw [← Std.HashMap.find?_toList_eq_none_iff_not_mem, List.find?_eq_none] at habsent
      simpa using habsent entry hentry
  | some value =>
      obtain ⟨stored, hkey, hstored⟩ :=
        Std.HashMap.getElem?_eq_some_iff_exists_beq_and_mem_toList.mp hvalue
      exact (distinctKeys_toList entries).sum_eq_add hstored (BEq.symm hkey)
        fun entry => measure entry.2

theorem sum_toList_insert (key : κ) (value : ν) (measure : ν → Nat) :
    ((entries.insert key value).toList.map fun entry => measure entry.2).sum =
      measure value + ((entries.erase key).toList.map fun entry => measure entry.2).sum := by
  rw [((toList_insert_perm_erase entries key value).map _).sum_eq, List.map_cons, List.sum_cons]

/-- A change of all values, whatever their keys are. -/
theorem getElem?_map_values {μ : Type v} (change : ν → μ) (key : κ) :
    (entries.map fun _ value => change value)[key]? = entries[key]?.map change := by
  rw [Std.HashMap.getElem?_map', Option.pmap_eq_map]

end Maps

end Collections
