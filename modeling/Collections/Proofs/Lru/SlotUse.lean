import Mathlib
import Collections.Proofs.Lru.ReuseDistance
import Collections.Proofs.Lru.SlotCoherence
import Collections.Proofs.Trace

/-!
# Use of the slots of a cache

A cache allocates a slot only when it has more entries than ever since it was made or cleared, so
the number of its slots is the greatest number of entries it had.  A slot that was freed is used
again, the one freed last before all others, and an eviction hands its slot to the new entry.
-/

namespace Collections

universe u v w

/-! ## What is left of freed slots -/

/-- Of the slots that were freed, last first, these are left, in the order in which they were
freed for the last time. -/
def LeftOf (freed left : List Nat) : Prop :=
  left = freed.eraseDups.filter (· ∈ left)

section Left

variable {freed left : List Nat} {slot : Nat}

theorem find?_eraseDups {keys : List Nat} {holds : Nat → Bool} :
    keys.eraseDups.find? holds = keys.find? holds := by
  induction keys using eraseDups_induction with
  | hnil => rfl
  | hcons head rest ih =>
      rw [List.eraseDups_cons, List.find?_cons, List.find?_cons]
      split
      next => rfl
      next hhead =>
        rw [ih, List.find?_filter]
        congr 1
        funext other
        by_cases hother : other = head <;> simp [hother, hhead]

theorem leftOf_nil (freed : List Nat) : LeftOf freed [] := by
  simp [LeftOf]

theorem LeftOf.push (hleft : LeftOf freed left) (hslot : slot ∉ left) :
    LeftOf (slot :: freed) (slot :: left) := by
  rw [LeftOf, List.eraseDups_cons, List.filter_cons_of_pos (by simp), eraseDups_filter,
    List.filter_filter]
  refine congrArg (List.cons slot) (hleft.trans (List.filter_congr fun other _ => ?_))
  by_cases hother : other = slot <;> simp [hother, hslot]

theorem LeftOf.tail (hleft : LeftOf freed left) (hnodup : left.Nodup) :
    LeftOf freed left.tail := by
  cases left with
  | nil => exact leftOf_nil freed
  | cons slot rest =>
      have hslot : slot ∉ rest := (List.nodup_cons.mp hnodup).1
      have hrest : ∀ other ∈ rest, (!(other == slot)) = true := by
        intro other hother
        rw [Bool.not_eq_true', beq_eq_false_iff_ne]
        exact ne_of_mem_of_not_mem hother hslot
      calc
        rest = (slot :: rest).filter fun other => !(other == slot) := by
          rw [List.filter_cons_of_neg (by simp), List.filter_eq_self.mpr hrest]
        _ = (freed.eraseDups.filter (· ∈ slot :: rest)).filter fun other => !(other == slot) :=
          congrArg _ hleft
        _ = freed.eraseDups.filter (· ∈ rest) := by
          rw [List.filter_filter]
          refine List.filter_congr fun other _ => ?_
          by_cases hother : other = slot <;> simp [hother, hslot]

/-- The first of the slots that are left is the one freed last. -/
theorem LeftOf.head? (hleft : LeftOf freed left) :
    left.head? = freed.find? (· ∈ left) := by
  rw [← find?_eraseDups, ← List.head?_filter, ← hleft]

end Left

namespace LruCache

variable {ε : Type u} {κ : Type v} {ν : Type w} [BEq κ] [Hashable κ]

/-- A slot was allocated and holds nothing. -/
def Vacant (cache : LruCache ε κ ν) (slot : Nat) : Prop :=
  slot < cache.entries.size ∧ cache.entryAt? slot = none

/-- The slot that an entry without eviction goes to: of the vacant ones the one freed last, and
the next unused one only if no slot is vacant. -/
inductive Takes (cache : LruCache ε κ ν) (freed : List Nat) : Nat → Prop
  | freed {newer older : List Nat} {slot : Nat} (hfreed : freed = newer ++ slot :: older)
      (hvacant : cache.Vacant slot) (hnewer : ∀ other ∈ newer, ¬ cache.Vacant other) :
      Takes cache freed slot
  | unused (hnone : ∀ slot, ¬ cache.Vacant slot) : Takes cache freed cache.entries.size

/-- A call adds a key that the cache does not have. -/
def isInsertion (cache : LruCache ε κ ν) : CacheCall κ ν → Bool
  | .put key _ => !cache.contains key
  | .tryAdd key _ => !cache.contains key
  | _ => false

/-- The slot that an insertion frees: that of the entry used least recently if the cache is
full. -/
def evictedSlot (cache : LruCache ε κ ν) : List Nat :=
  if cache.capacity.toNat ≤ cache.length then cache.recency.tail.toList else []

/-- The slots that a call frees. -/
def freedBy (cache : LruCache ε κ ν) : CacheCall κ ν → List Nat
  | .put key _ => if cache.contains key then [] else cache.evictedSlot
  | .tryAdd key _ => if cache.contains key then [] else cache.evictedSlot
  | .remove key => cache.index[key]?.toList
  | _ => []

/-- The freed slots after a call. -/
def freedAfter (cache : LruCache ε κ ν) (freed : List Nat) : CacheCall κ ν → List Nat
  | .clear => []
  | call => cache.freedBy call ++ freed

/-- A key leads to a slot that holds its entry. -/
def KeptIn (cache : LruCache ε κ ν) (entry : κ × ν) (slot : Nat) : Prop :=
  cache.index[entry.1]? = some slot ∧ cache.entryAt? slot = some entry

/-! ## Slots of a layout -/

section Layout

variable {cache : LruCache ε κ ν} {placed front : List (Nat × κ × ν)} {freed : List Nat}
variable {slot : Nat} {entry : κ × ν} {key : κ}

theorem Layout.vacant_iff (hlayout : cache.Layout placed) :
    cache.Vacant slot ↔ slot ∈ cache.free := by
  rw [hlayout.free_iff, Vacant, ← hlayout.isSome_entryAt?_iff, Option.not_isSome_iff_eq_none]

/-- Each slot holds an entry or is free. -/
theorem Layout.size_entries (hlayout : cache.Layout placed) :
    cache.entries.size = cache.length + cache.free.length := by
  have hapart : (placed.map Prod.fst ++ cache.free).Nodup := by
    refine hlayout.recency.nodup.append hlayout.free_nodup ?_
    exact fun slot hused hfree => ((hlayout.free_iff slot).mp hfree).2 hused
  have hperm : (List.range cache.entries.size).Perm (placed.map Prod.fst ++ cache.free) := by
    rw [List.perm_ext_iff_of_nodup List.nodup_range hapart]
    intro slot
    rw [List.mem_range, List.mem_append, hlayout.free_iff]
    constructor
    · exact fun hsize => (Classical.em _).imp_right fun hunused => ⟨hsize, hunused⟩
    · exact fun hslot => hslot.elim hlayout.lt_size And.left
  have hlength := hperm.length_eq
  rwa [List.length_range, List.length_append, List.length_map, ← hlayout.length_eq] at hlength

theorem Layout.takes (hlayout : cache.Layout placed) (hleft : LeftOf freed cache.free) :
    cache.Takes freed (cache.free.headD cache.entries.size) := by
  cases hfree : cache.free with
  | nil =>
      refine .unused fun slot hvacant => ?_
      rw [hlayout.vacant_iff, hfree] at hvacant
      exact absurd hvacant List.not_mem_nil
  | cons slot rest =>
      have hfirst : freed.find? (· ∈ cache.free) = some slot := by
        rw [← hleft.head?, hfree]
        rfl
      obtain ⟨hslot, newer, older, hfreed, hnewer⟩ := List.find?_eq_some_iff_append.mp hfirst
      refine .freed hfreed (hlayout.vacant_iff.mpr (of_decide_eq_true hslot)) ?_
      intro other hother hvacant
      have hnot := hnewer other hother
      rw [decide_eq_true (hlayout.vacant_iff.mp hvacant)] at hnot
      exact absurd hnot (by decide)

theorem free_place (cache : LruCache ε κ ν) (key : κ) (value : ν) :
    (cache.place key value).free = cache.free.tail := by
  rw [place, allocate]
  cases cache.free <;> rfl

/-- A new slot is allocated only if none is free. -/
theorem Layout.size_place (hlayout : cache.Layout placed) (key : κ) (value : ν) :
    (cache.place key value).entries.size =
      max cache.entries.size (cache.free.headD cache.entries.size + 1) := by
  rw [LruCache.place, LruCache.allocate]
  cases hfree : cache.free with
  | nil =>
      dsimp only
      rw [Array.size_setIfInBounds, Array.size_push, List.headD_nil]
      exact (Nat.max_eq_right (Nat.le_succ _)).symm
  | cons slot rest =>
      have hbound := ((hlayout.free_iff slot).mp (hfree ▸ List.mem_cons_self)).1
      dsimp only
      rw [Array.size_setIfInBounds, List.headD_cons]
      exact (Nat.max_eq_left hbound).symm

/-- Counting an event changes nothing but the statistics. -/
theorem exists_record_eq (cache : LruCache ε κ ν) (event : CacheEvent) :
    ∃ statistics, cache.record event = { cache with statistics := statistics } := by
  rw [record]
  split
  · exact ⟨_, rfl⟩
  · exact ⟨cache.statistics, rfl⟩

theorem Layout.keptIn [EquivBEq κ] (hlayout : cache.Layout placed)
    (hplaced : (slot, entry) ∈ placed) : cache.KeptIn entry slot :=
  ⟨(hlayout.index_iff entry.1 slot).mpr ⟨entry, hplaced, BEq.rfl⟩,
    (hlayout.stored_iff slot entry).mpr hplaced⟩

end Layout

/-! ## What a call does to the slots -/

section Calls

variable [EvictionListener ε κ ν]
variable {cache : LruCache ε κ ν} {placed front : List (Nat × κ × ν)} {freed : List Nat}
variable {slot : Nat} {entry : κ × ν} {key : κ}

variable [EquivBEq κ] [LawfulHashable κ]

omit [EvictionListener ε κ ν] [EquivBEq κ] [LawfulHashable κ] in
theorem exists_of_isInsertion {call : CacheCall κ ν} (hcall : cache.isInsertion call = true) :
    ∃ key value, call ∈ [CacheCall.put key value, .tryAdd key value] ∧
      cache.contains key = false := by
  cases call with
  | put key value => exact ⟨key, value, by simp, Bool.not_eq_true' _ ▸ hcall⟩
  | tryAdd key value => exact ⟨key, value, by simp, Bool.not_eq_true' _ ▸ hcall⟩
  | _ => exact absurd hcall Bool.false_ne_true

/-- Both calls that add a key do so in the same way. -/
theorem step_of_insertion {value : ν} {call : CacheCall κ ν}
    (hcall : call ∈ [.put key value, .tryAdd key value]) (hcontains : cache.contains key = false) :
    cache.index[key]? = none ∧ cache.freedBy call = cache.evictedSlot ∧
      (cache.perform call).2 = (cache.insertNew key value).state ∧
        (cache.step call).log = (cache.insertNew key value).log := by
  have habsent : cache.index[key]? = none := by
    have hindex := hcontains
    rw [LruCache.contains, Std.HashMap.contains_eq_isSome_getElem?] at hindex
    exact Option.isNone_iff_eq_none.mp (Option.isSome_eq_false_iff.mp hindex)
  refine ⟨habsent, ?_⟩
  rcases List.mem_pair.mp hcall with rfl | rfl
  · change (if cache.contains key then [] else cache.evictedSlot) = _ ∧
      (cache.put key value).state = _ ∧ (cache.put key value).log = _
    rw [put, habsent, hcontains]
    exact ⟨rfl, rfl, rfl⟩
  · change (if cache.contains key then [] else cache.evictedSlot) = _ ∧
      (cache.tryAdd key value).state = _ ∧ (cache.tryAdd key value).log = _
    rw [tryAdd, hcontains]
    exact ⟨rfl, rfl, rfl⟩

/-- All other calls leave the number of slots, and only a removal frees one. -/
theorem slots_of_not_isInsertion {call : CacheCall κ ν} (hcall : cache.isInsertion call = false)
    (hclear : call ≠ .clear) :
    (cache.perform call).2.entries.size = cache.entries.size ∧
      (cache.perform call).2.free = cache.freedBy call ++ cache.free := by
  cases call with
  | put key value =>
      have hcontains : cache.contains key = true := Bool.not_eq_false' _ ▸ hcall
      have hindex := hcontains
      rw [LruCache.contains, Std.HashMap.contains_eq_isSome_getElem?] at hindex
      obtain ⟨slot, hslot⟩ := Option.isSome_iff_exists.mp hindex
      obtain ⟨statistics, hrecord⟩ := (cache.touch slot).exists_record_eq .update
      rw [freedBy, hcontains]
      change (cache.put key value).state.entries.size = _ ∧ (cache.put key value).state.free = _
      rw [put, hslot]
      dsimp only [Step.quiet]
      rw [hrecord]
      exact ⟨Array.size_modify, rfl⟩
  | tryAdd key value =>
      have hcontains : cache.contains key = true := Bool.not_eq_false' _ ▸ hcall
      rw [freedBy, hcontains]
      change (cache.tryAdd key value).state.entries.size = _ ∧
        (cache.tryAdd key value).state.free = _
      rw [tryAdd, hcontains]
      exact ⟨rfl, rfl⟩
  | get key =>
      change (cache.get key).2.entries.size = _ ∧ (cache.get key).2.free = _
      rw [LruCache.get]
      cases cache.index[key]? with
      | none =>
          obtain ⟨statistics, hrecord⟩ := cache.exists_record_eq .miss
          dsimp only
          rw [hrecord]
          exact ⟨rfl, rfl⟩
      | some slot =>
          obtain ⟨statistics, hrecord⟩ := (cache.touch slot).exists_record_eq .hit
          dsimp only
          rw [hrecord]
          exact ⟨rfl, rfl⟩
  | remove key =>
      change (cache.remove key).2.entries.size = _ ∧ (cache.remove key).2.free = _
      rw [remove, freedBy]
      cases cache.index[key]? with
      | none => exact ⟨rfl, rfl⟩
      | some slot => exact ⟨Array.size_setIfInBounds, rfl⟩
  | clear => exact absurd rfl hclear
  | _ => exact ⟨rfl, rfl⟩

/-- An insertion with room takes a slot and drops nothing. -/
theorem Layout.insertNew_of_room (hlayout : cache.Layout placed)
    (habsent : cache.index[key]? = none) (hroom : cache.length < cache.capacity.toNat)
    (value : ν) :
    (cache.insertNew key value).log = [] ∧
      (cache.insertNew key value).state.free = cache.free.tail ∧
        (cache.insertNew key value).state.entries.size =
            max cache.entries.size (cache.free.headD cache.entries.size + 1) ∧
          (cache.insertNew key value).state.KeptIn (key, value)
            (cache.free.headD cache.entries.size) := by
  obtain ⟨statistics, hrecord⟩ := (cache.place key value).exists_record_eq .insertion
  have hnew : cache.insertNew key value =
      ⟨{ cache.place key value with statistics := statistics }, (), []⟩ := by
    rw [insertNew, if_neg (Nat.not_le_of_lt hroom), ← hrecord]
    rfl
  rw [hlayout.length_eq] at hroom
  rw [hnew]
  exact ⟨rfl, LruCache.free_place cache key value, hlayout.size_place key value,
    (hlayout.place habsent hroom value).keptIn List.mem_cons_self⟩

/-- An insertion into a full cache takes the slot that the eviction frees. -/
theorem Layout.insertNew_of_full (hlayout : cache.Layout (front ++ [(slot, entry)]))
    (habsent : cache.index[key]? = none) (hfull : cache.capacity.toNat ≤ cache.length)
    (value : ν) :
    (cache.insertNew key value).log = [.entryEvicted slot cache.capacity] ∧
      (cache.insertNew key value).state.free = cache.free ∧
        (cache.insertNew key value).state.entries.size = cache.entries.size ∧
          (cache.insertNew key value).state.KeptIn (key, value) slot := by
  obtain ⟨statistics, hevicted⟩ := ((cache.dismiss entry).vacate slot).exists_record_eq .eviction
  -- The cache after the eviction, in which the slot is the one freed last.
  set evicted : LruCache ε κ ν :=
    { (cache.dismiss entry).vacate slot with statistics := statistics }
  obtain ⟨counted, hrecord⟩ := (evicted.place key value).exists_record_eq .insertion
  have hnew : cache.insertNew key value =
      ⟨{ evicted.place key value with statistics := counted }, (),
        [.entryEvicted slot cache.capacity]⟩ := by
    rw [insertNew, if_pos hfull, evict_eq_of_append hlayout, hevicted, ← hrecord]
    rfl
  have hfree : evicted.free = slot :: cache.free := rfl
  have hsize : evicted.entries.size = cache.entries.size := Array.size_setIfInBounds
  have hunknown : evicted.index[key]? = none := by
    change (cache.index.erase entry.1)[key]? = none
    rw [Std.HashMap.getElem?_erase, habsent, ite_self]
  have hlaid : evicted.Layout front := { hlayout.dismiss with }
  have hroom : front.length < evicted.capacity.toNat := by
    have hlength := hlayout.length_le
    rw [List.length_append] at hlength
    exact hlength
  have hbound : slot < cache.entries.size := hlayout.lt_size (by simp)
  have hplaced := (hlaid.place hunknown hroom value).keptIn List.mem_cons_self
  have hafter := hlaid.size_place key value
  rw [hfree, List.headD_cons] at hplaced hafter
  rw [hnew]
  refine ⟨rfl, ?_, ?_, hplaced⟩
  · exact (LruCache.free_place evicted key value).trans (congrArg List.tail hfree)
  · refine hafter.trans ?_
    rw [hsize, Nat.max_eq_left hbound]

/-- The two ways in which an insertion finds a slot. -/
theorem Layout.insertion_cases (hlayout : cache.Layout placed)
    (hcapacity : 0 < cache.capacity.toNat) {value : ν} {call : CacheCall κ ν}
    (hcall : call ∈ [.put key value, .tryAdd key value]) (hcontains : cache.contains key = false) :
    (cache.length < cache.capacity.toNat ∧ cache.freedBy call = [] ∧
      (cache.step call).log = [] ∧ (cache.perform call).2.free = cache.free.tail ∧
        (cache.perform call).2.entries.size =
            max cache.entries.size (cache.free.headD cache.entries.size + 1) ∧
          (cache.perform call).2.KeptIn (key, value) (cache.free.headD cache.entries.size)) ∨
    (cache.capacity.toNat ≤ cache.length ∧
      ∃ front slot entry, placed = front ++ [(slot, entry)] ∧ cache.freedBy call = [slot] ∧
        (cache.step call).log = [.entryEvicted slot cache.capacity] ∧
          (cache.perform call).2.free = cache.free ∧
            (cache.perform call).2.entries.size = cache.entries.size ∧
              (cache.perform call).2.KeptIn (key, value) slot) := by
  obtain ⟨habsent, hfreed, hstate, hlog⟩ := step_of_insertion hcall hcontains
  rw [hfreed, hstate, hlog, evictedSlot]
  rcases Nat.lt_or_ge cache.length cache.capacity.toNat with hroom | hfull
  · rw [if_neg (Nat.not_le_of_lt hroom)]
    exact Or.inl ⟨hroom, rfl, hlayout.insertNew_of_room habsent hroom value⟩
  · obtain ⟨front, slot, entry, rfl, htail⟩ := hlayout.exists_tail hcapacity hfull
    rw [if_pos hfull, htail]
    exact Or.inr ⟨hfull, front, slot, entry, rfl, rfl,
      hlayout.insertNew_of_full habsent hfull value⟩

omit [EvictionListener ε κ ν] [EquivBEq κ] [LawfulHashable κ] in
theorem Layout.not_mem_free (hlayout : cache.Layout placed)
    (hslot : slot ∈ placed.map Prod.fst) : slot ∉ cache.free :=
  fun hfree => ((hlayout.free_iff slot).mp hfree).2 hslot

omit [EvictionListener ε κ ν] [EquivBEq κ] [LawfulHashable κ] in
/-- A call frees at most one slot, which was not free. -/
theorem Layout.freedBy_cases (hlayout : cache.Layout placed) (call : CacheCall κ ν) :
    cache.freedBy call = [] ∨ ∃ slot, cache.freedBy call = [slot] ∧ slot ∉ cache.free := by
  have hevicted : cache.evictedSlot = [] ∨
      ∃ slot, cache.evictedSlot = [slot] ∧ slot ∉ cache.free := by
    rw [evictedSlot]
    split
    · cases htail : cache.recency.tail with
      | none => exact Or.inl rfl
      | some slot =>
          obtain ⟨front, hslots⟩ := hlayout.tail_split htail
          exact Or.inr ⟨slot, rfl, hlayout.not_mem_free (by simp [hslots])⟩
    · exact Or.inl rfl
  cases call with
  | put key value =>
      rw [freedBy]
      split
      · exact Or.inl rfl
      · exact hevicted
  | tryAdd key value =>
      rw [freedBy]
      split
      · exact Or.inl rfl
      · exact hevicted
  | remove key =>
      rw [freedBy]
      cases hslot : cache.index[key]? with
      | none => exact Or.inl rfl
      | some slot =>
          obtain ⟨front, back, hslots⟩ := hlayout.slots_split hslot
          exact Or.inr ⟨slot, rfl, hlayout.not_mem_free (by simp [hslots])⟩
  | _ => exact Or.inl rfl

/-- The free slots stay those that are left of the freed ones, in order. -/
theorem Layout.leftOf_perform (hlayout : cache.Layout placed)
    (hcapacity : 0 < cache.capacity.toNat) (hleft : LeftOf freed cache.free)
    (call : CacheCall κ ν) :
    LeftOf (cache.freedAfter freed call) (cache.perform call).2.free := by
  by_cases hclear : call = .clear
  · rw [hclear]
    exact leftOf_nil []
  have hfreed : cache.freedAfter freed call = cache.freedBy call ++ freed := by
    cases call with
    | clear => exact absurd rfl hclear
    | _ => rfl
  have hpushed : LeftOf (cache.freedBy call ++ freed) (cache.freedBy call ++ cache.free) := by
    rcases hlayout.freedBy_cases call with hnone | ⟨slot, hslot, hused⟩
    · rwa [hnone]
    · rw [hslot]
      exact hleft.push hused
  rw [hfreed]
  cases hcall : cache.isInsertion call with
  | false =>
      rw [(slots_of_not_isInsertion hcall hclear).2]
      exact hpushed
  | true =>
      obtain ⟨key, value, hadded, hcontains⟩ := exists_of_isInsertion hcall
      rcases hlayout.insertion_cases hcapacity hadded hcontains with
        ⟨-, hnone, -, hfree, -⟩ | ⟨-, front, slot, entry, rfl, hslot, -, hfree, -⟩
      · rw [hnone, hfree]
        exact hleft.tail hlayout.free_nodup
      · -- The slot that was evicted from is taken at once.
        have hused : slot ∉ cache.free := hlayout.not_mem_free (by simp)
        rw [hslot] at hpushed
        rw [hslot, hfree]
        exact hpushed.tail (List.nodup_cons.mpr ⟨hused, hlayout.free_nodup⟩)

/-- A slot is allocated only for more entries than there are slots. -/
theorem Layout.size_perform (hlayout : cache.Layout placed)
    (hcapacity : 0 < cache.capacity.toNat) {after : List (Nat × κ × ν)} {call : CacheCall κ ν}
    (hafter : (cache.perform call).2.Layout after) (hclear : call ≠ .clear) :
    (cache.perform call).2.entries.size =
      max cache.entries.size (cache.perform call).2.length := by
  have hbefore := hlayout.size_entries
  have hentries := hafter.size_entries
  cases hcall : cache.isInsertion call with
  | false =>
      obtain ⟨hsize, -⟩ := slots_of_not_isInsertion hcall hclear
      omega
  | true =>
      obtain ⟨key, value, hadded, hcontains⟩ := exists_of_isInsertion hcall
      rcases hlayout.insertion_cases hcapacity hadded hcontains with
        ⟨-, -, -, hfree, hsize, -⟩ | ⟨-, front, slot, entry, -, -, -, -, hsize, -⟩
      · cases hslots : cache.free with
        | nil =>
            rw [hslots] at hfree hsize hbefore
            rw [hfree] at hentries
            rw [List.headD_nil] at hsize
            change _ = _ + 0 at hentries
            omega
        | cons slot rest =>
            have hbound := ((hlayout.free_iff slot).mp (hslots ▸ List.mem_cons_self)).1
            rw [hslots, List.headD_cons] at hsize
            omega
      · omega

end Calls

/-! ## Runs -/

section Runs

variable [EvictionListener ε κ ν]

/-- The slots that were freed in a run since its start or the last clearing, last first. -/
def freedSlots (start : LruCache ε κ ν) (calls : List (CacheCall κ ν)) : List Nat :=
  (Calls.trace perform start calls).foldl (fun freed turn => turn.1.freedAfter freed turn.2.1) []

/-- How a call that adds an entry uses the slots of a cache, if these are its entries in the order
of their last use and these slots were freed. -/
structure UsesSlots (cache : LruCache ε κ ν) (recent : List (κ × ν)) (freed : List Nat)
    (call : CacheCall κ ν) (entry : κ × ν) : Prop where
  room : cache.length < cache.capacity.toNat →
    (cache.step call).log = [] ∧
      ∃ slot, cache.Takes freed slot ∧ (cache.perform call).2.KeptIn entry slot ∧
        (cache.perform call).2.entries.size = max cache.entries.size (slot + 1)
  /-- A full cache hands the slot of the entry used least recently to the new one. -/
  full : cache.capacity.toNat ≤ cache.length →
    ∃ slot oldest, recent.getLast? = some oldest ∧ cache.KeptIn oldest slot ∧
      (cache.step call).log = [.entryEvicted slot cache.capacity] ∧
        (cache.perform call).2.KeptIn entry slot ∧
          (cache.perform call).2.entries.size = cache.entries.size

variable [EquivBEq κ] [LawfulHashable κ]
variable {cache start : LruCache ε κ ν} {placed : List (Nat × κ × ν)} {freed : List Nat}

theorem Layout.usesSlots (hlayout : cache.Layout placed) (hcapacity : 0 < cache.capacity.toNat)
    (hleft : LeftOf freed cache.free) {key : κ} {value : ν} {call : CacheCall κ ν}
    (hcall : call ∈ [.put key value, .tryAdd key value]) (hcontains : cache.contains key = false) :
    cache.UsesSlots (placed.map Prod.snd) freed call (key, value) := by
  rcases hlayout.insertion_cases hcapacity hcall hcontains with
    ⟨hroom, -, hlog, -, hsize, hkept⟩ |
      ⟨hfull, front, slot, oldest, rfl, -, hlog, -, hsize, hkept⟩
  · exact {
      room := fun _ => ⟨hlog, _, hlayout.takes hleft, hkept, hsize⟩
      full := fun hfull => absurd hroom (Nat.not_lt_of_le hfull) }
  · exact {
      room := fun hroom => absurd hroom (Nat.not_lt_of_le hfull)
      full := by
        intro _
        refine ⟨slot, oldest, ?_, hlayout.keptIn (by simp), hlog, hkept, hsize⟩
        rw [List.map_append, List.map_singleton, List.getLast?_concat] }

theorem Reachable.exists_layout (hreached : cache.Reachable) :
    0 < cache.capacity.toNat ∧ ∃ placed, cache.Layout placed := by
  obtain ⟨settings, listener, recent, hcapacity, hfollows⟩ := hreached.follows
  obtain ⟨placed, hlayout, -⟩ := hfollows.layout
  refine ⟨?_, placed, hlayout⟩
  rw [LruCache.capacity, hfollows.settings_eq]
  exact hcapacity

theorem Reachable.size_perform (hreached : cache.Reachable) {call : CacheCall κ ν}
    (hclear : call ≠ .clear) : (cache.perform call).2.entries.size =
      max cache.entries.size (cache.perform call).2.length := by
  obtain ⟨hcapacity, placed, hlayout⟩ := hreached.exists_layout
  obtain ⟨-, after, hafter⟩ := Reachable.exists_layout (Calls.Reachable.step hreached call)
  exact hlayout.size_perform hcapacity hafter hclear

theorem Initial.leftOf_run (hinitial : start.Initial) (calls : List (CacheCall κ ν)) :
    LeftOf (start.freedSlots calls) (Calls.run perform start calls).2.free := by
  induction calls using List.reverseRecOn with
  | nil =>
      obtain ⟨settings, listener, hstart⟩ := hinitial
      rw [(withListener_eq_ok_iff.mp hstart).2]
      exact leftOf_nil _
  | append_singleton calls call ih =>
      have hreached : (Calls.run perform start calls).2.Reachable :=
        Calls.Reachable.run calls (.start hinitial)
      obtain ⟨hcapacity, placed, hlayout⟩ := hreached.exists_layout
      rw [freedSlots, Calls.trace_concat, List.foldl_append, Calls.run_concat]
      exact hlayout.leftOf_perform hcapacity ih call

/-- In every run there are as many slots as there were entries at most since the start or the
last clearing, and so never more than the capacity.  A new entry takes the slot that was freed
last, if one is free, and the next unused one otherwise; if an entry has to go for it, this is
the one used least recently, and its slot is logged and taken. -/
theorem withListener_run_uses_slots {settings : CacheSettings} {listener : ε}
    (hstart : withListener settings listener = .ok start) (calls : List (CacheCall κ ν)) :
    let final := (Calls.run perform start calls).2
    let recent := (Calls.run (RecentEntries.perform settings) .empty calls).2
    IsGreatest (Calls.valuesSince perform length (· = .clear) start calls) final.entries.size ∧
      final.entries.size ≤ final.capacity.toNat ∧
        ∀ key value, final.contains key = false →
          ∀ call ∈ [CacheCall.put key value, .tryAdd key value],
            final.UsesSlots recent.entries (start.freedSlots calls) call (key, value) := by
  intro final recent
  have hinitial : start.Initial := ⟨settings, listener, hstart⟩
  have hpositive := (withListener_eq_ok_iff.mp hstart).1
  have hfollows (calls : List (CacheCall κ ν)) :=
    ((follows_of_withListener hstart).run hpositive calls).2
  have hsize : start.entries.size = start.length := by
    rw [(withListener_eq_ok_iff.mp hstart).2]
    rfl
  have hcleared : ∀ (cache : LruCache ε κ ν) (call : CacheCall κ ν), call = .clear →
      (cache.perform call).2.entries.size = (cache.perform call).2.length := by
    rintro cache call rfl
    rfl
  have hgreatest := Calls.isGreatest_valuesSince (·.entries.size) Reachable (.start hinitial) hsize
    (fun _ call hbefore => Calls.Reachable.step hbefore call) hcleared
    (fun _ _ hbefore hclear => Reachable.size_perform hbefore hclear) calls
  have hcapacity : final.capacity = settings.capacity :=
    congrArg CacheSettings.capacity (hfollows calls).settings_eq
  refine ⟨hgreatest, ?_, ?_⟩
  · obtain ⟨earlier, later, -, -, hvalue⟩ := hgreatest.1
    have hbefore := (hfollows earlier).agrees
    rw [hcapacity]
    exact hvalue.trans_le (hbefore.length.trans_le hbefore.length_le)
  · intro key value hcontains call hcall
    obtain ⟨placed, hlayout, hentries⟩ := (hfollows calls).layout
    have huses := hlayout.usesSlots (hcapacity ▸ hpositive) (hinitial.leftOf_run calls) hcall
      hcontains
    rw [hentries] at huses
    exact huses

end Runs

/-- Of three slots one was freed by an eviction and taken at once, and then one by a removal, so
that the next entry goes there. -/
theorem withListener_run_uses_slots_vacatingCalls :
    ∃ start : LruCache (EvictionRecord Nat Int64) Nat Int64,
      withListener ⟨3, true⟩ .empty = .ok start ∧
        IsGreatest (Calls.valuesSince perform length (· = .clear) start vacatingCalls) 3 ∧
          (Calls.run perform start vacatingCalls).2.UsesSlots [(4, 40), (3, 30)] [0, 1]
            (.put 5 50) (5, 50) := by
  have hstart : withListener ⟨3, true⟩ .empty = .ok
      (⟨⟨3, true⟩, ∅, #[], .empty, [], .zero, .empty⟩ :
        LruCache (EvictionRecord Nat Int64) Nat Int64) := rfl
  obtain ⟨hgreatest, -, huses⟩ := withListener_run_uses_slots hstart vacatingCalls
  have hsize : (Calls.run perform
      (⟨⟨3, true⟩, ∅, #[], .empty, [], .zero, .empty⟩ :
        LruCache (EvictionRecord Nat Int64) Nat Int64) vacatingCalls).2.entries.size = 3 := by
    cbv
  have hfreed : freedSlots
      (⟨⟨3, true⟩, ∅, #[], .empty, [], .zero, .empty⟩ :
        LruCache (EvictionRecord Nat Int64) Nat Int64) vacatingCalls = [0, 1] := by
    cbv
  have huse := huses 5 50 (by cbv) (.put 5 50) List.mem_cons_self
  rw [hsize] at hgreatest
  rw [hfreed] at huse
  exact ⟨_, hstart, hgreatest, huse⟩

end LruCache

end Collections
