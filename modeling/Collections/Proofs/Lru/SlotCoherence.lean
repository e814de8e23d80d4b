import Mathlib
import Collections.Proofs.Lru.UsedSlots

/-!
# Coherence of the slots of a cache

The links, the index, the entries and the free slots of a cache describe one partition of
its slots, in every state that calls lead to.  So each slot that a call looks at lies
inside the tables and holds an entry, a full cache always has an entry to drop, and a walk
ends after as many entries as there are.
-/

namespace Collections

universe u v w

namespace Recency

/-! ## Slots whose links are used -/

variable {recency : Recency}

theorem Holds.mem_of_unlinkSlots {front back : List Nat} {slot other : Nat}
    (hholds : recency.Holds (front ++ slot :: back))
    (hother : other ∈ recency.unlinkSlots slot) : other ∈ front ++ slot :: back := by
  obtain ⟨hprevious, hnext⟩ := hholds.neighbours
  rw [unlinkSlots, hprevious, hnext, List.mem_cons, List.mem_append, Option.mem_toList,
    Option.mem_toList] at hother
  rw [List.mem_append, List.mem_cons]
  rcases hother with hself | hbefore | hafter
  · exact Or.inr (Or.inl hself)
  · exact Or.inl (List.mem_of_getLast? hbefore)
  · exact Or.inr (Or.inr (List.mem_of_head? hafter))

theorem Holds.mem_of_head_unlink {front back : List Nat} {slot other : Nat}
    (hholds : recency.Holds (front ++ slot :: back))
    (hother : other ∈ (recency.unlink slot).head.toList) : other ∈ front ++ slot :: back := by
  rw [hholds.unlink.head_eq, Option.mem_toList] at hother
  have hrest : other ∈ front ++ back := List.mem_of_head? hother
  exact ((List.sublist_cons_self slot back).append_left front).subset hrest

theorem Holds.mem_of_moveSlots {front back : List Nat} {slot other : Nat}
    (hholds : recency.Holds (front ++ slot :: back))
    (hother : other ∈ recency.moveSlots slot) : other ∈ front ++ slot :: back := by
  rw [moveSlots] at hother
  split at hother
  · exact absurd hother List.not_mem_nil
  · rw [List.mem_append, List.mem_cons] at hother
    rcases hother with hunlinked | hself | hhead
    · exact hholds.mem_of_unlinkSlots hunlinked
    · rw [hself]
      simp
    · exact hholds.mem_of_head_unlink hhead

end Recency

namespace LruCache

variable {ε : Type u} {κ : Type v} {ν : Type w} [BEq κ] [Hashable κ] [EvictionListener ε κ ν]

/-- A slot lies inside the tables and holds an entry. -/
structure Occupied (cache : LruCache ε κ ν) (slot : Nat) : Prop where
  lt_size_entries : slot < cache.entries.size
  lt_size_links : slot < cache.recency.links.size
  holds_entry : (cache.entryAt? slot).isSome

/-! ## What a layout says about slots -/

section Layout

variable {cache : LruCache ε κ ν} {placed : List (Nat × κ × ν)}

omit [EvictionListener ε κ ν]

theorem Layout.isSome_entryAt?_iff (hlayout : cache.Layout placed) (slot : Nat) :
    (cache.entryAt? slot).isSome ↔ slot ∈ placed.map Prod.fst := by
  rw [Option.isSome_iff_exists, List.mem_map]
  constructor
  · intro hstored
    obtain ⟨entry, hentry⟩ := hstored
    exact ⟨(slot, entry), (hlayout.stored_iff slot entry).mp hentry, rfl⟩
  · intro hmem
    obtain ⟨⟨other, entry⟩, hplaced, hslot⟩ := hmem
    rw [← hslot]
    exact ⟨entry, (hlayout.stored_iff other entry).mpr hplaced⟩

theorem Layout.occupied (hlayout : cache.Layout placed) {slot : Nat}
    (hslot : slot ∈ placed.map Prod.fst) : cache.Occupied slot where
  lt_size_entries := hlayout.lt_size hslot
  lt_size_links := hlayout.recency.linked.lt_size slot hslot
  holds_entry := (hlayout.isSome_entryAt?_iff slot).mpr hslot

/-- A slot that the index knows stands somewhere in the recency order. -/
theorem Layout.slots_split (hlayout : cache.Layout placed) {key : κ} {slot : Nat}
    (hslot : cache.index[key]? = some slot) :
    ∃ front back, placed.map Prod.fst = front ++ slot :: back := by
  obtain ⟨front, entry, back, hplaced, -⟩ := hlayout.split_of_some hslot
  rw [hplaced, List.map_append, List.map_cons]
  exact ⟨_, _, rfl⟩

theorem Layout.tail_split (hlayout : cache.Layout placed) {slot : Nat}
    (htail : cache.recency.tail = some slot) :
    ∃ front, placed.map Prod.fst = front ++ [slot] := by
  rw [hlayout.recency.tail_eq] at htail
  exact List.getLast?_eq_some_iff.mp htail

theorem Layout.allocate (hlayout : cache.Layout placed) :
    cache.allocate.1 < cache.allocate.2.entries.size ∧
      cache.allocate.1 < cache.allocate.2.recency.links.size ∧
        cache.allocate.1 ∉ placed.map Prod.fst := by
  rw [LruCache.allocate]
  cases hfree : cache.free with
  | nil =>
      refine ⟨?_, ?_, fun hused => Nat.lt_irrefl _ (hlayout.lt_size hused)⟩
      · rw [Array.size_push]
        exact Nat.lt_succ_self _
      · rw [Recency.addSlot, Array.size_push, hlayout.size_links]
        exact Nat.lt_succ_self _
  | cons slot free =>
      have hslot : slot ∈ cache.free := hfree ▸ List.mem_cons_self
      obtain ⟨hbound, hfresh⟩ := (hlayout.free_iff slot).mp hslot
      exact ⟨hbound, hlayout.size_links ▸ hbound, hfresh⟩

end Layout

/-! ## Slots that a call uses -/

section Used

variable {cache : LruCache ε κ ν} {placed : List (Nat × κ × ν)}

omit [EvictionListener ε κ ν] in
theorem Layout.exists_tail (hlayout : cache.Layout placed) (hcapacity : 0 < cache.capacity.toNat)
    (hfull : cache.capacity.toNat ≤ cache.length) :
    ∃ front slot entry, placed = front ++ [(slot, entry)] ∧ cache.recency.tail = some slot := by
  rcases List.eq_nil_or_concat placed with hnil | ⟨front, ⟨slot, entry⟩, hconcat⟩
  · rw [hlayout.length_eq, hnil, List.length_nil] at hfull
    exact absurd hcapacity (Nat.not_lt_of_le hfull)
  · rw [List.concat_eq_append] at hconcat
    refine ⟨front, slot, entry, hconcat, ?_⟩
    rw [hlayout.recency.tail_eq, hconcat, List.map_append, List.map_singleton,
      List.getLast?_concat]

variable [EquivBEq κ] [LawfulHashable κ]

/-- The cache keeps a part of its slots when it makes room. -/
theorem Layout.makeRoom (hlayout : cache.Layout placed)
    (hcapacity : 0 < cache.capacity.toNat) :
    ∃ kept, cache.makeRoom.Layout kept ∧ kept.Sublist placed := by
  rw [LruCache.makeRoom]
  by_cases hfull : cache.capacity.toNat ≤ cache.length
  · obtain ⟨front, slot, entry, hplaced, -⟩ := hlayout.exists_tail hcapacity hfull
    subst hplaced
    rw [if_pos hfull, evict_of_append hlayout]
    exact ⟨front, hlayout.dismiss.record .eviction, List.sublist_append_left _ _⟩
  · rw [if_neg hfull]
    exact ⟨placed, hlayout, List.Sublist.refl _⟩

theorem Layout.mem_of_insertionSlots (hlayout : cache.Layout placed)
    (hcapacity : 0 < cache.capacity.toNat) {slot : Nat}
    (hslot : slot ∈ cache.insertionSlots) : slot ∈ placed.map Prod.fst := by
  rw [insertionSlots, List.mem_append] at hslot
  rcases hslot with hevicted | hhead
  · split at hevicted
    · obtain ⟨last, htail, hunlinked⟩ := List.mem_flatMap.mp hevicted
      rw [Option.mem_toList] at htail
      obtain ⟨front, hslots⟩ := hlayout.tail_split htail
      have hholds := hlayout.recency
      rw [hslots] at hholds ⊢
      exact hholds.mem_of_unlinkSlots hunlinked
    · exact absurd hevicted List.not_mem_nil
  · obtain ⟨kept, hkept, hsublist⟩ := hlayout.makeRoom hcapacity
    rw [hkept.recency.head_eq, Option.mem_toList] at hhead
    exact (hsublist.map Prod.fst).subset (List.mem_of_head? hhead)

omit [EvictionListener ε κ ν] [EquivBEq κ] [LawfulHashable κ] in
theorem Layout.mem_of_indexed (hlayout : cache.Layout placed) {key : κ} {slot other : Nat}
    (hslot : cache.index[key]? = some slot)
    (hother : other ∈ slot :: cache.recency.moveSlots slot ∨
      other ∈ cache.recency.unlinkSlots slot) : other ∈ placed.map Prod.fst := by
  obtain ⟨front, back, hslots⟩ := hlayout.slots_split hslot
  have hholds := hlayout.recency
  rw [hslots] at hholds ⊢
  rcases hother with hmoved | hunlinked
  · rcases List.mem_cons.mp hmoved with hself | hlink
    · rw [hself]
      simp
    · exact hholds.mem_of_moveSlots hlink
  · exact hholds.mem_of_unlinkSlots hunlinked

/-- A call looks at slots with entries only. -/
theorem Layout.mem_of_usedSlots (hlayout : cache.Layout placed)
    (hcapacity : 0 < cache.capacity.toNat) {call : CacheCall κ ν} {slot : Nat}
    (hslot : slot ∈ cache.usedSlots call) : slot ∈ placed.map Prod.fst := by
  cases call with
  | put key value =>
      rw [usedSlots] at hslot
      cases hindex : cache.index[key]? with
      | none =>
          rw [hindex] at hslot
          exact hlayout.mem_of_insertionSlots hcapacity hslot
      | some found =>
          rw [hindex] at hslot
          exact hlayout.mem_of_indexed hindex (Or.inl hslot)
  | tryAdd key value =>
      rw [usedSlots] at hslot
      split at hslot
      · exact absurd hslot List.not_mem_nil
      · exact hlayout.mem_of_insertionSlots hcapacity hslot
  | get key =>
      obtain ⟨found, hfound, hmoved⟩ := List.mem_flatMap.mp hslot
      exact hlayout.mem_of_indexed (Option.mem_toList.mp hfound) (Or.inl hmoved)
  | peek key =>
      have hindex : cache.index[key]? = some slot := Option.mem_toList.mp hslot
      exact hlayout.mem_of_indexed hindex (Or.inl List.mem_cons_self)
  | contains key => exact absurd hslot List.not_mem_nil
  | remove key =>
      obtain ⟨found, hfound, hunlinked⟩ := List.mem_flatMap.mp hslot
      exact hlayout.mem_of_indexed (Option.mem_toList.mp hfound) (Or.inr hunlinked)
  | clear => exact absurd hslot List.not_mem_nil
  | oldest =>
      obtain ⟨front, hslots⟩ := hlayout.tail_split (Option.mem_toList.mp hslot)
      rw [hslots]
      simp
  | resetStatistics => exact absurd hslot List.not_mem_nil
  | iterate count =>
      obtain ⟨steps, -, hstep⟩ := List.mem_filterMap.mp hslot
      rw [hlayout.recency.follow_nextOf] at hstep
      exact List.mem_of_getElem? hstep

end Used

/-! ## Reachable caches -/

/-- The links, the index, the entries and the free slots describe one partition of the slots
into those that hold an entry and those that are free. -/
structure SlotsCoherent (cache : LruCache ε κ ν) : Prop where
  /-- The links lead from the head to as many slots as there are entries, and then to none. -/
  forward : ∀ steps, Recency.follow cache.recency.nextOf cache.recency.head steps =
    cache.recency.toList[steps]?
  length_slots : cache.recency.toList.length = cache.length
  nodup_slots : cache.recency.toList.Nodup
  last_eq_tail : cache.recency.toList.getLast? = cache.recency.tail
  /-- The links back from the tail lead to the same slots in the opposite order. -/
  backward : ∀ steps, Recency.follow cache.recency.previousOf cache.recency.tail steps =
    cache.recency.toList.reverse[steps]?
  stored_iff : ∀ slot, (cache.entryAt? slot).isSome ↔ slot ∈ cache.recency.toList
  /-- The index leads from the keys of the stored entries to their slots, and knows no
  other keys. -/
  index_iff : ∀ key slot, cache.index[key]? = some slot ↔
    ∃ entry, cache.entryAt? slot = some entry ∧ (entry.1 == key) = true
  size_index : cache.index.size = cache.length
  nodup_free : cache.free.Nodup
  free_iff : ∀ slot, slot ∈ cache.free ↔
    slot < cache.entries.size ∧ slot ∉ cache.recency.toList
  size_links : cache.recency.links.size = cache.entries.size
  head_eq_none_iff : cache.recency.head = none ↔ cache.length = 0
  tail_eq_none_iff : cache.recency.tail = none ↔ cache.length = 0
  length_le : cache.length ≤ cache.capacity.toNat

/-- No call meets a slot that is outside the tables or that holds no entry. -/
structure SlotsInUse (cache : LruCache ε κ ν) : Prop where
  used : ∀ call, ∀ slot ∈ cache.usedSlots call, cache.Occupied slot
  /-- A call does the same whatever stands in another slot, and leaves it there. -/
  unused : ∀ call slot entry link, slot ∉ cache.usedSlots call →
    slot ∉ cache.allocatedSlots call → (cache.disturb slot entry link).perform call =
      ((cache.perform call).1, (cache.perform call).2.disturb slot entry link)
  /-- A slot that is allocated for a new entry lies inside the tables and is vacant. -/
  allocated : cache.makeRoom.allocate.1 < cache.makeRoom.allocate.2.entries.size ∧
    cache.makeRoom.allocate.1 < cache.makeRoom.allocate.2.recency.links.size ∧
      cache.makeRoom.entryAt? cache.makeRoom.allocate.1 = none
  /-- A full cache has an entry to drop. -/
  evictable : cache.capacity.toNat ≤ cache.length →
    ∃ slot, cache.recency.tail = some slot ∧ cache.Occupied slot
  length_toList : cache.toList.length = cache.length
  /-- A walk tells before each call how many entries are still to come, and yields the
  entries in turn and then nothing. -/
  walk : ∀ count, Cursor.remaining (Cursor.after cache.walk count) = cache.length - count ∧
    (Cursor.next (Cursor.after cache.walk count)).1 = cache.toList[count]?

/-- A new cache, whatever its settings and its listener are. -/
def Initial (cache : LruCache ε κ ν) : Prop :=
  ∃ settings listener, withListener settings listener = .ok cache

/-- The caches that any calls lead to. -/
def Reachable (cache : LruCache ε κ ν) : Prop :=
  Calls.Reachable Initial perform cache

section Reach

variable {cache : LruCache ε κ ν} {placed : List (Nat × κ × ν)}

omit [EvictionListener ε κ ν] in
theorem Layout.coherent (hlayout : cache.Layout placed) : cache.SlotsCoherent := by
  have hslots : cache.recency.toList = placed.map Prod.fst := hlayout.recency.toList_eq
  exact {
    forward := by
      rw [hslots]
      exact hlayout.recency.follow_nextOf
    length_slots := by rw [hslots, LruCache.length, hlayout.recency.length_eq]
    nodup_slots := hslots ▸ hlayout.recency.nodup
    last_eq_tail := by rw [hslots, hlayout.recency.tail_eq]
    backward := by
      rw [hslots]
      exact hlayout.recency.follow_previousOf
    stored_iff := by
      rw [hslots]
      exact hlayout.isSome_entryAt?_iff
    index_iff := by
      intro key slot
      rw [hlayout.index_iff]
      simp only [hlayout.stored_iff]
    size_index := hlayout.size_index.trans hlayout.length_eq.symm
    nodup_free := hlayout.free_nodup
    free_iff := by
      rw [hslots]
      exact hlayout.free_iff
    size_links := hlayout.size_links
    head_eq_none_iff := by
      rw [hlayout.recency.head_eq, List.head?_eq_none_iff, LruCache.length,
        hlayout.recency.length_eq, List.length_eq_zero_iff]
    tail_eq_none_iff := by
      rw [hlayout.recency.tail_eq, List.getLast?_eq_none_iff, LruCache.length,
        hlayout.recency.length_eq, List.length_eq_zero_iff]
    length_le := hlayout.length_eq ▸ hlayout.length_le }

variable [EquivBEq κ] [LawfulHashable κ]

theorem Layout.inUse (hlayout : cache.Layout placed)
    (hcapacity : 0 < cache.capacity.toNat) : cache.SlotsInUse where
  used call slot hslot := hlayout.occupied (hlayout.mem_of_usedSlots hcapacity hslot)
  unused _ _ entry link hunused hallocated :=
    perform_disturb cache entry link hlayout.size_links hunused hallocated
  allocated := by
    obtain ⟨kept, hkept, -⟩ := hlayout.makeRoom hcapacity
    obtain ⟨hentries, hlinks, hvacant⟩ := hkept.allocate
    refine ⟨hentries, hlinks, ?_⟩
    rw [← hkept.isSome_entryAt?_iff, Option.not_isSome_iff_eq_none] at hvacant
    exact hvacant
  evictable := by
    intro hfull
    obtain ⟨front, slot, entry, hplaced, htail⟩ := hlayout.exists_tail hcapacity hfull
    refine ⟨slot, htail, hlayout.occupied ?_⟩
    rw [hplaced]
    simp
  length_toList := by rw [hlayout.toList_eq, List.length_map, hlayout.length_eq]
  walk := by
    intro count
    rw [hlayout.toList_eq, hlayout.length_eq, ← List.length_map Prod.snd]
    exact (yields_shows cache).remaining_after hlayout.shows_walk count

/-- The state of a reachable cache is described by some recent entries. -/
theorem Reachable.follows (hreached : cache.Reachable) :
    ∃ settings listener recent, 0 < settings.capacity.toNat ∧
      Follows settings listener cache recent := by
  apply Calls.Reachable.invariant _ _ hreached
  · intro start hinitial
    obtain ⟨settings, listener, hstart⟩ := hinitial
    exact ⟨settings, listener, .empty, (withListener_eq_ok_iff.mp hstart).1,
      follows_of_withListener hstart⟩
  · intro state call hstate
    obtain ⟨settings, listener, recent, hcapacity, hfollows⟩ := hstate
    exact ⟨settings, listener, _, hcapacity, (hfollows.perform hcapacity call).2⟩

/-- In every state of a cache the slots are coherent, and each call meets only slots that it
may use. -/
theorem Reachable.slotsCoherent (hreached : cache.Reachable) :
    cache.SlotsCoherent ∧ cache.SlotsInUse := by
  obtain ⟨settings, listener, recent, hcapacity, hfollows⟩ := hreached.follows
  obtain ⟨placed, hlayout, -⟩ := hfollows.layout
  have hpositive : 0 < cache.capacity.toNat := by
    rw [LruCache.capacity, hfollows.settings_eq]
    exact hcapacity
  exact ⟨hlayout.coherent, hlayout.inUse hpositive⟩

end Reach

/-- Calls that evict an entry and remove a middle one, so that one slot is reused and
another stays free. -/
def vacatingCalls : List (CacheCall Nat Int64) :=
  [.put 1 10, .put 2 20, .put 3 30, .get 1, .put 4 40, .remove 1, .peek 3]

theorem slotsCoherent_vacatingCalls :
    ∃ cache : LruCache (EvictionRecord Nat Int64) Nat Int64, cache.Reachable ∧
      cache.recency.toList = [1, 2] ∧ cache.free = [0] ∧
        cache.toList = [(4, 40), (3, 30)] ∧ cache.SlotsCoherent ∧ cache.SlotsInUse := by
  have hinitial : Initial
      (⟨⟨3, true⟩, ∅, #[], .empty, [], .zero, .empty⟩ :
        LruCache (EvictionRecord Nat Int64) Nat Int64) :=
    ⟨⟨3, true⟩, .empty, rfl⟩
  have hreached : Reachable (Calls.run perform
      (⟨⟨3, true⟩, ∅, #[], .empty, [], .zero, .empty⟩ :
        LruCache (EvictionRecord Nat Int64) Nat Int64) vacatingCalls).2 :=
    Calls.Reachable.run vacatingCalls (.start hinitial)
  exact ⟨_, hreached, by cbv, by cbv, by cbv, hreached.slotsCoherent⟩

end LruCache

end Collections
