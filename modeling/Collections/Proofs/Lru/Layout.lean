import Mathlib
import Collections.Lru.Cache
import Collections.Proofs.Cursor
import Collections.Proofs.Lru.RecencyLinks

/-!
# Layout of a cache

The entries of a cache lie in slots.  A layout lists them with their slots, most
recently used first; it says what the recency order, the slots, the index and the list
of free slots hold then.  Each change of a cache is described by what it does to the
layout.
-/

namespace Collections

universe u v w

namespace LruCache

variable {ε : Type u} {κ : Type v} {ν : Type w} [BEq κ] [Hashable κ]

/-- The slots of a cache hold exactly these entries, most recently used first. -/
structure Layout (cache : LruCache ε κ ν) (placed : List (Nat × κ × ν)) : Prop where
  recency : cache.recency.Holds (placed.map Prod.fst)
  size_links : cache.recency.links.size = cache.entries.size
  stored_iff : ∀ slot entry, cache.entryAt? slot = some entry ↔ (slot, entry) ∈ placed
  index_iff : ∀ key slot, cache.index[key]? = some slot ↔
    ∃ entry, (slot, entry) ∈ placed ∧ (entry.1 == key) = true
  size_index : cache.index.size = placed.length
  free_nodup : cache.free.Nodup
  free_iff : ∀ slot, slot ∈ cache.free ↔
    slot < cache.entries.size ∧ slot ∉ placed.map Prod.fst
  length_le : placed.length ≤ cache.capacity.toNat

/-! ## What a layout shows -/

section Layout

variable {cache : LruCache ε κ ν} {placed front back : List (Nat × κ × ν)}
variable {slot : Nat} {entry : κ × ν} {key : κ}

theorem Layout.lt_size (hlayout : cache.Layout placed) (hslot : slot ∈ placed.map Prod.fst) :
    slot < cache.entries.size := by
  rw [← hlayout.size_links]
  exact hlayout.recency.linked.lt_size slot hslot

/-- A slot holds one entry. -/
theorem Layout.eq_of_slot (hlayout : cache.Layout placed) {other : κ × ν}
    (hentry : (slot, entry) ∈ placed) (hother : (slot, other) ∈ placed) : entry = other := by
  have hstored := (hlayout.stored_iff slot entry).mpr hentry
  rw [(hlayout.stored_iff slot other).mpr hother] at hstored
  exact (Option.some.inj hstored).symm

theorem Layout.toList_eq (hlayout : cache.Layout placed) :
    cache.toList = placed.map Prod.snd := by
  rw [LruCache.toList, hlayout.recency.toList_eq, List.filterMap_map,
    ← List.filterMap_eq_map (f := Prod.snd)]
  apply List.filterMap_congr
  rintro ⟨slot, entry⟩ hmem
  exact (hlayout.stored_iff slot entry).mpr hmem

theorem Layout.length_eq (hlayout : cache.Layout placed) : cache.length = placed.length := by
  rw [LruCache.length, hlayout.recency.length_eq, List.length_map]

theorem Layout.oldest?_eq (hlayout : cache.Layout placed) :
    cache.oldest? = (placed.map Prod.snd).getLast? := by
  rw [LruCache.oldest?, hlayout.recency.tail_eq, List.getLast?_map, List.getLast?_map]
  cases hlast : placed.getLast? with
  | none => rfl
  | some last =>
      rw [Option.map_some, Option.map_some, Option.bind_some]
      exact (hlayout.stored_iff last.1 last.2).mpr (List.mem_of_getLast? hlast)

/-- A key that the index knows is the key of an entry in its slot. -/
theorem Layout.split_of_some (hlayout : cache.Layout placed)
    (hslot : cache.index[key]? = some slot) :
    ∃ front entry back, placed = front ++ (slot, entry) :: back ∧
      (entry.1 == key) = true := by
  obtain ⟨entry, hmem, hkey⟩ := (hlayout.index_iff key slot).mp hslot
  obtain ⟨front, back, hplaced⟩ := List.append_of_mem hmem
  exact ⟨front, entry, back, hplaced, hkey⟩

theorem Layout.ne_of_none (hlayout : cache.Layout placed) (hnone : cache.index[key]? = none) :
    ∀ entry ∈ placed.map Prod.snd, ¬ (entry.1 == key) = true := by
  rintro entry hentry hkey
  obtain ⟨⟨slot, stored⟩, hmem, rfl⟩ := List.mem_map.mp hentry
  rw [(hlayout.index_iff key slot).mpr ⟨_, hmem, hkey⟩] at hnone
  simp at hnone

variable [EquivBEq κ]

/-- No key is in two slots. -/
theorem Layout.distinct (hlayout : cache.Layout placed) :
    (placed.map Prod.snd).Pairwise fun newer older => ¬ (newer.1 == older.1) = true := by
  rw [List.pairwise_map]
  have hslots : placed.Pairwise fun newer older => newer.1 ≠ older.1 :=
    List.pairwise_map.mp hlayout.recency.nodup
  apply hslots.imp_of_mem
  rintro ⟨slot, entry⟩ ⟨otherSlot, other⟩ hentry hother hdistinct hkey
  have hindex := (hlayout.index_iff other.1 slot).mpr ⟨entry, hentry, hkey⟩
  rw [(hlayout.index_iff other.1 otherSlot).mpr ⟨other, hother, BEq.rfl⟩] at hindex
  exact hdistinct (Option.some.inj hindex).symm

end Layout

/-! ## Changes -/

section Changes

variable {cache : LruCache ε κ ν} {placed front back rest : List (Nat × κ × ν)}
variable {slot : Nat} {entry : κ × ν} {key : κ}

theorem Layout.listen (hlayout : cache.Layout placed) (listener : ε) :
    ({ cache with listener := listener } : LruCache ε κ ν).Layout placed :=
  { hlayout with }

theorem Layout.record (hlayout : cache.Layout placed) (event : CacheEvent) :
    (cache.record event).Layout placed := by
  rw [LruCache.record]
  split
  · exact { hlayout with }
  · exact hlayout

theorem layout_empty {cache : LruCache ε κ ν} (hindex : cache.index = ∅)
    (hentries : cache.entries = #[]) (hrecency : cache.recency = .empty)
    (hfree : cache.free = []) : cache.Layout [] where
  recency := hrecency ▸ Recency.holds_empty
  size_links := by
    rw [hrecency, hentries]
    rfl
  stored_iff slot entry := by simp [entryAt?, hentries]
  index_iff key slot := by simp [hindex]
  size_index := by simp [hindex]
  free_nodup := hfree ▸ List.nodup_nil
  free_iff slot := by simp [hfree, hentries]
  length_le := Nat.zero_le _

/-- The slot of an entry becomes the one used most recently. -/
theorem Layout.touch (hlayout : cache.Layout (front ++ (slot, entry) :: back)) :
    (cache.touch slot).Layout ((slot, entry) :: (front ++ back)) := by
  have hperm : (front ++ (slot, entry) :: back).Perm ((slot, entry) :: (front ++ back)) :=
    List.perm_middle
  have hmoved : (cache.recency.moveToHead slot).Holds
      (((slot, entry) :: (front ++ back)).map Prod.fst) := by
    have hholds := hlayout.recency
    rw [List.map_append, List.map_cons] at hholds
    rw [List.map_cons, List.map_append]
    exact hholds.moveToHead
  exact {
    recency := hmoved
    size_links := (Recency.size_moveToHead cache.recency slot).trans hlayout.size_links
    stored_iff := fun other stored =>
      (hlayout.stored_iff other stored).trans hperm.mem_iff
    index_iff := by
      intro other otherSlot
      simp only [← hperm.mem_iff]
      exact hlayout.index_iff other otherSlot
    size_index := hlayout.size_index.trans hperm.length_eq
    free_nodup := hlayout.free_nodup
    free_iff := by
      intro other
      rw [← (hperm.map Prod.fst).mem_iff]
      exact hlayout.free_iff other
    length_le := hperm.length_eq ▸ hlayout.length_le }

theorem join_setIfInBounds {α : Type u} {entries : Array (Option α)} {slot : Nat}
    (hbound : slot < entries.size) (content : Option α) (other : Nat) :
    (entries.setIfInBounds slot content)[other]?.join =
      if slot = other then content else entries[other]?.join := by
  by_cases hother : slot = other
  · rw [if_pos hother, ← hother, Array.getElem?_setIfInBounds_self_of_lt hbound, Option.join_some]
  · rw [if_neg hother, Array.getElem?_setIfInBounds_ne hother]

omit [BEq κ] [Hashable κ] in
/-- A slot that is written holds the new entry, and the other slots hold what they held. -/
theorem stored_setIfInBounds {entries : Array (Option (κ × ν))} (hbound : slot < entries.size)
    (hfresh : slot ∉ rest.map Prod.fst)
    (hothers : ∀ other stored, slot ≠ other →
      (entries[other]?.join = some stored ↔ (other, stored) ∈ rest))
    (written : κ × ν) (other : Nat) (stored : κ × ν) :
    (entries.setIfInBounds slot (some written))[other]?.join = some stored ↔
      (other, stored) ∈ (slot, written) :: rest := by
  rw [join_setIfInBounds hbound, List.mem_cons, Prod.mk.injEq]
  split
  next heq =>
    rw [← heq, Option.some.injEq, eq_comm]
    constructor
    · exact fun hsame => Or.inl ⟨rfl, hsame⟩
    · rintro (⟨-, hsame⟩ | hmem)
      · exact hsame
      · exact absurd (List.mem_map_of_mem hmem) hfresh
  next hdistinct =>
    rw [or_iff_right fun hboth => hdistinct hboth.1.symm]
    exact hothers other stored hdistinct

/-- The entries without the one in a slot are those in other slots. -/
theorem Layout.mem_append_iff (hlayout : cache.Layout (front ++ (slot, entry) :: back))
    (other : Nat × κ × ν) :
    other ∈ front ++ back ↔ other ∈ front ++ (slot, entry) :: back ∧ other.1 ≠ slot := by
  have hnodup := hlayout.recency.nodup
  rw [List.map_append, List.map_cons, List.nodup_middle, List.nodup_cons, ← List.map_append]
    at hnodup
  rw [List.perm_middle.mem_iff, List.mem_cons]
  constructor
  · intro hmem
    refine ⟨Or.inr hmem, ?_⟩
    intro heq
    exact hnodup.1 (List.mem_map.mpr ⟨other, hmem, heq⟩)
  · rintro ⟨rfl | hmem, hdistinct⟩
    · exact absurd rfl hdistinct
    · exact hmem

theorem Layout.mem_slots_append_iff (hlayout : cache.Layout (front ++ (slot, entry) :: back))
    (other : Nat) :
    other ∈ (front ++ back).map Prod.fst ↔
      other ∈ (front ++ (slot, entry) :: back).map Prod.fst ∧ other ≠ slot := by
  simp only [List.mem_map, hlayout.mem_append_iff]
  constructor
  · rintro ⟨pair, ⟨hpair, hdistinct⟩, rfl⟩
    exact ⟨⟨pair, hpair, rfl⟩, hdistinct⟩
  · rintro ⟨⟨pair, hpair, rfl⟩, hdistinct⟩
    exact ⟨pair, ⟨hpair, hdistinct⟩, rfl⟩

theorem Layout.stored_drop (hlayout : cache.Layout (front ++ (slot, entry) :: back))
    (hbound : slot < cache.entries.size) (other : Nat) (stored : κ × ν) :
    (cache.entries.setIfInBounds slot none)[other]?.join = some stored ↔
      (other, stored) ∈ front ++ back := by
  rw [join_setIfInBounds hbound, hlayout.mem_append_iff]
  split
  next heq => simp [heq]
  next hdistinct =>
    rw [and_iff_left (Ne.symm hdistinct)]
    exact hlayout.stored_iff other stored

theorem Layout.free_drop (hlayout : cache.Layout (front ++ (slot, entry) :: back))
    (hbound : slot < cache.entries.size) (other : Nat) :
    other ∈ slot :: cache.free ↔
      other < cache.entries.size ∧ other ∉ (front ++ back).map Prod.fst := by
  rw [List.mem_cons, hlayout.free_iff, hlayout.mem_slots_append_iff, not_and_not_right]
  constructor
  · rintro (rfl | ⟨hsize, hunused⟩)
    · exact ⟨hbound, fun _ => rfl⟩
    · exact ⟨hsize, fun hother => absurd hother hunused⟩
  · rintro ⟨hsize, hunused⟩
    by_cases hother : other ∈ (front ++ (slot, entry) :: back).map Prod.fst
    · exact Or.inl (hunused hother)
    · exact Or.inr ⟨hsize, hother⟩

variable [EquivBEq κ] [LawfulHashable κ]

theorem Layout.index_drop (hlayout : cache.Layout (front ++ (slot, entry) :: back))
    (hkey : (entry.1 == key) = true) (other : κ) (otherSlot : Nat) :
    (cache.index.erase key)[other]? = some otherSlot ↔
      ∃ stored, (otherSlot, stored) ∈ front ++ back ∧ (stored.1 == other) = true := by
  have hmem : (slot, entry) ∈ front ++ (slot, entry) :: back := by simp
  rw [Std.HashMap.getElem?_erase]
  simp only [hlayout.mem_append_iff]
  split
  next hequal =>
    constructor
    · simp
    · rintro ⟨stored, ⟨hstored, hdistinct⟩, hother⟩
      have hindexed := (hlayout.index_iff key slot).mpr ⟨entry, hmem, hkey⟩
      have hsame : (stored.1 == key) = true := BEq.trans hother (BEq.symm hequal)
      rw [(hlayout.index_iff key otherSlot).mpr ⟨stored, hstored, hsame⟩] at hindexed
      exact absurd (Option.some.inj hindexed) hdistinct
  next hunequal =>
    rw [hlayout.index_iff]
    apply exists_congr
    intro stored
    constructor
    · rintro ⟨hstored, hother⟩
      refine ⟨⟨hstored, ?_⟩, hother⟩
      rintro rfl
      rw [hlayout.eq_of_slot hstored hmem] at hother
      exact hunequal (BEq.trans (BEq.symm hkey) hother)
    · rintro ⟨⟨hstored, -⟩, hother⟩
      exact ⟨hstored, hother⟩

/-- An entry is dropped with its key, and its slot is free. -/
theorem Layout.drop (hlayout : cache.Layout (front ++ (slot, entry) :: back))
    (hkey : (entry.1 == key) = true) :
    (({ cache with index := cache.index.erase key } : LruCache ε κ ν).vacate slot).Layout
      (front ++ back) := by
  have hmem : (slot, entry) ∈ front ++ (slot, entry) :: back := by simp
  have hused : slot ∈ (front ++ (slot, entry) :: back).map Prod.fst :=
    List.mem_map_of_mem hmem
  have hbound := hlayout.lt_size hused
  have hsize : (cache.entries.setIfInBounds slot none).size = cache.entries.size :=
    Array.size_setIfInBounds
  exact {
    recency := by
      have hholds := hlayout.recency
      rw [List.map_append, List.map_cons] at hholds
      rw [List.map_append]
      exact hholds.unlink
    size_links := by
      change (cache.recency.unlink slot).links.size = (cache.entries.setIfInBounds slot none).size
      rw [Recency.size_unlink, hsize, hlayout.size_links]
    stored_iff := hlayout.stored_drop hbound
    index_iff := hlayout.index_drop hkey
    size_index := by
      have hknown : key ∈ cache.index := by
        rw [Std.HashMap.mem_iff_isSome_getElem?,
          (hlayout.index_iff key slot).mpr ⟨entry, hmem, hkey⟩]
        rfl
      change (cache.index.erase key).size = _
      rw [Std.HashMap.size_erase, if_pos hknown, hlayout.size_index]
      simp
    free_nodup := by
      apply List.nodup_cons.mpr ⟨?_, hlayout.free_nodup⟩
      rw [hlayout.free_iff]
      exact fun hfree => hfree.2 hused
    free_iff := by
      intro other
      change _ ↔ other < (cache.entries.setIfInBounds slot none).size ∧ _
      rw [hsize]
      exact hlayout.free_drop hbound other
    length_le := by
      have hlength := hlayout.length_le
      rw [List.perm_middle.length_eq, List.length_cons] at hlength
      exact Nat.le_of_succ_le hlength }

/-! ## Adding an entry -/

/-- The cache with one more slot, which is free. -/
def extend (cache : LruCache ε κ ν) : LruCache ε κ ν :=
  { cache with
    entries := cache.entries.push none
    recency := cache.recency.addSlot
    free := cache.entries.size :: cache.free }

omit [EquivBEq κ] [LawfulHashable κ] in
theorem Layout.extend (hlayout : cache.Layout placed) : cache.extend.Layout placed := by
  have hnew : cache.entries.size ∉ placed.map Prod.fst := fun hused =>
    Nat.lt_irrefl _ (hlayout.lt_size hused)
  exact { hlayout with
    recency := hlayout.recency.addSlot
    size_links := by
      change (cache.recency.links.push _).size = (cache.entries.push none).size
      rw [Array.size_push, Array.size_push, hlayout.size_links]
    stored_iff := by
      intro slot entry
      change (cache.entries.push none)[slot]?.join = some entry ↔ _
      rw [Array.getElem?_push]
      split
      next heq =>
        rw [heq, Option.join_some]
        constructor
        · simp
        · exact fun hmem => absurd (List.mem_map_of_mem hmem) hnew
      next => exact hlayout.stored_iff slot entry
    free_nodup := by
      apply List.nodup_cons.mpr ⟨?_, hlayout.free_nodup⟩
      rw [hlayout.free_iff]
      exact fun hfree => Nat.lt_irrefl _ hfree.1
    free_iff := by
      intro slot
      change slot ∈ cache.entries.size :: cache.free ↔ slot < (cache.entries.push none).size ∧ _
      rw [List.mem_cons, hlayout.free_iff, Array.size_push, Nat.lt_succ_iff_lt_or_eq]
      constructor
      · rintro (rfl | ⟨hsize, hunused⟩)
        · exact ⟨Or.inr rfl, hnew⟩
        · exact ⟨Or.inl hsize, hunused⟩
      · rintro ⟨hsize | heq, hunused⟩
        · exact Or.inr ⟨hsize, hunused⟩
        · exact Or.inl heq }

omit [EquivBEq κ] [LawfulHashable κ] in
theorem place_of_nil (hfree : cache.free = []) (key : κ) (value : ν) :
    cache.place key value = cache.extend.place key value := by
  rw [place, place, allocate, allocate, hfree, LruCache.extend, hfree]

theorem Layout.index_place (hlayout : cache.Layout placed) (habsent : cache.index[key]? = none)
    (value : ν) (other : κ) (otherSlot : Nat) :
    (cache.index.insert key slot)[other]? = some otherSlot ↔
      ∃ stored, (otherSlot, stored) ∈ (slot, key, value) :: placed ∧
        (stored.1 == other) = true := by
  rw [Std.HashMap.getElem?_insert]
  split
  next hequal =>
    have hunknown : ∀ stored, (otherSlot, stored) ∈ placed →
        ¬ (stored.1 == other) = true := by
      intro stored hstored hsame
      have hknown := (hlayout.index_iff key otherSlot).mpr
        ⟨stored, hstored, BEq.trans hsame (BEq.symm hequal)⟩
      rw [habsent] at hknown
      simp at hknown
    constructor
    · intro heq
      exact ⟨_, List.mem_cons.mpr (Or.inl (by rw [Option.some.inj heq])), hequal⟩
    · rintro ⟨stored, hstored, hsame⟩
      rcases List.mem_cons.mp hstored with heq | hmem
      · rw [(Prod.mk.inj heq).1]
      · exact absurd hsame (hunknown stored hmem)
  next hunequal =>
    rw [hlayout.index_iff]
    apply exists_congr
    intro stored
    rw [List.mem_cons, Prod.mk.injEq]
    constructor
    · exact fun hstored => ⟨Or.inr hstored.1, hstored.2⟩
    · rintro ⟨⟨-, rfl⟩ | hmem, hsame⟩
      · exact absurd hsame hunequal
      · exact ⟨hmem, hsame⟩

omit [EquivBEq κ] [LawfulHashable κ] in
theorem Layout.free_place (hlayout : cache.Layout placed) {free : List Nat}
    (hfree : cache.free = slot :: free) (other : Nat) :
    other ∈ free ↔ other < cache.entries.size ∧ other ∉ slot :: placed.map Prod.fst := by
  have hunused := (List.nodup_cons.mp (hfree ▸ hlayout.free_nodup)).1
  have hother := hlayout.free_iff other
  rw [hfree, List.mem_cons] at hother
  rw [List.mem_cons, not_or]
  constructor
  · intro hmem
    obtain ⟨hsize, houtside⟩ := hother.mp (Or.inr hmem)
    refine ⟨hsize, ?_, houtside⟩
    rintro rfl
    exact hunused hmem
  · rintro ⟨hsize, hdistinct, houtside⟩
    exact (hother.mpr ⟨hsize, houtside⟩).resolve_left hdistinct

/-- A new entry takes the slot freed last. -/
theorem Layout.place_of_cons (hlayout : cache.Layout placed) {free : List Nat}
    (hfree : cache.free = slot :: free) (habsent : cache.index[key]? = none)
    (hroom : placed.length < cache.capacity.toNat) (value : ν) :
    (cache.place key value).Layout ((slot, key, value) :: placed) := by
  have hslot : slot ∈ cache.free := hfree ▸ List.mem_cons_self
  obtain ⟨hbound, hfresh⟩ := (hlayout.free_iff slot).mp hslot
  have hplace : cache.place key value =
      { cache with
        free := free
        index := cache.index.insert key slot
        entries := cache.entries.setIfInBounds slot (some (key, value))
        recency := cache.recency.pushHead slot } := by
    rw [place, allocate, hfree]
  rw [hplace]
  exact {
    recency := by
      apply hlayout.recency.pushHead hfresh
      rw [hlayout.size_links]
      exact hbound
    size_links := by
      rw [Recency.size_pushHead, Array.size_setIfInBounds, hlayout.size_links]
    stored_iff := stored_setIfInBounds hbound hfresh
      (fun other stored _ => hlayout.stored_iff other stored) (key, value)
    index_iff := hlayout.index_place habsent value
    size_index := by
      have hunknown : key ∉ cache.index := by
        rw [Std.HashMap.mem_iff_isSome_getElem?, habsent]
        simp
      rw [Std.HashMap.size_insert, if_neg hunknown, hlayout.size_index, List.length_cons]
    free_nodup := (List.nodup_cons.mp (hfree ▸ hlayout.free_nodup)).2
    free_iff := by
      rw [Array.size_setIfInBounds]
      exact hlayout.free_place hfree
    length_le := hroom }

/-- A new entry takes the slot freed last, or else a new one. -/
theorem Layout.place (hlayout : cache.Layout placed) (habsent : cache.index[key]? = none)
    (hroom : placed.length < cache.capacity.toNat) (value : ν) :
    (cache.place key value).Layout
      ((cache.free.headD cache.entries.size, key, value) :: placed) := by
  cases hfree : cache.free with
  | nil =>
      have hextended : cache.extend.free = [cache.entries.size] :=
        congrArg (cache.entries.size :: ·) hfree
      rw [place_of_nil hfree]
      exact hlayout.extend.place_of_cons hextended habsent hroom value
  | cons slot free => exact hlayout.place_of_cons hfree habsent hroom value

omit [EquivBEq κ] [LawfulHashable κ] in
theorem entries_overwrite (hstored : cache.entryAt? slot = some entry) (value : ν) :
    (cache.overwrite slot value).entries =
      cache.entries.setIfInBounds slot (some (entry.1, value)) := by
  have hentry : cache.entries[slot]? = some (some entry) := Option.join_eq_some_iff.mp hstored
  apply Array.ext_getElem?
  intro other
  change (cache.entries.modify slot _)[other]? = _
  rw [Array.getElem?_modify, Array.getElem?_setIfInBounds]
  split
  next heq =>
    obtain ⟨hbound, -⟩ := Array.getElem?_eq_some_iff.mp hentry
    rw [← heq, hentry, if_pos hbound]
    rfl
  next => rfl

omit [EquivBEq κ] [LawfulHashable κ] in
/-- The entry used most recently gets another value and keeps its key. -/
theorem Layout.overwrite (hlayout : cache.Layout ((slot, entry) :: rest)) (value : ν) :
    (cache.overwrite slot value).Layout ((slot, entry.1, value) :: rest) := by
  have hfresh : slot ∉ rest.map Prod.fst := (List.nodup_cons.mp hlayout.recency.nodup).1
  have hbound : slot < cache.entries.size := hlayout.lt_size List.mem_cons_self
  have hwritten := entries_overwrite
    ((hlayout.stored_iff slot entry).mpr List.mem_cons_self) value
  have hothers : ∀ other stored, slot ≠ other →
      (cache.entries[other]?.join = some stored ↔ (other, stored) ∈ rest) := by
    intro other stored hdistinct
    have hother := hlayout.stored_iff other stored
    rw [List.mem_cons, Prod.mk.injEq, or_iff_right fun hboth => hdistinct hboth.1.symm] at hother
    exact hother
  exact {
    recency := hlayout.recency
    size_links := by
      rw [hwritten, Array.size_setIfInBounds]
      exact hlayout.size_links
    stored_iff := by
      intro other stored
      rw [entryAt?, hwritten]
      exact stored_setIfInBounds hbound hfresh hothers (entry.1, value) other stored
    index_iff := by
      intro other otherSlot
      refine (hlayout.index_iff other otherSlot).trans ?_
      simp only [List.mem_cons, Prod.mk.injEq]
      constructor
      · rintro ⟨stored, ⟨rfl, rfl⟩ | hmem, hsame⟩
        · exact ⟨(stored.1, value), Or.inl ⟨rfl, rfl⟩, hsame⟩
        · exact ⟨stored, Or.inr hmem, hsame⟩
      · rintro ⟨stored, ⟨rfl, rfl⟩ | hmem, hsame⟩
        · exact ⟨entry, Or.inl ⟨rfl, rfl⟩, hsame⟩
        · exact ⟨stored, Or.inr hmem, hsame⟩
    size_index := hlayout.size_index
    free_nodup := hlayout.free_nodup
    free_iff := by
      rw [hwritten, Array.size_setIfInBounds]
      exact hlayout.free_iff
    length_le := hlayout.length_le }

end Changes

/-! ## Walks -/

section Walks

variable {cache : LruCache ε κ ν}

/-- The walk that stands before these slots and entries. -/
def walkFrom (cache : LruCache ε κ ν) (placed : List (Nat × κ × ν)) : Walk κ ν :=
  ⟨cache.entries, cache.recency, (placed.map Prod.fst).head?, placed.length⟩

/-- A walk has these entries of a cache before it. -/
def Shows (cache : LruCache ε κ ν) (walk : Walk κ ν) (items : List (κ × ν)) : Prop :=
  ∃ before placed, walk = cache.walkFrom placed ∧ items = placed.map Prod.snd ∧
    Recency.Linked cache.recency.links before (placed.map Prod.fst) none ∧
      ∀ slot entry, (slot, entry) ∈ placed → cache.entryAt? slot = some entry

theorem yields_shows (cache : LruCache ε κ ν) : Cursor.Yields cache.Shows where
  next_nil := by
    rintro walk ⟨before, placed, rfl, hitems, hlinked, hstored⟩
    obtain rfl : placed = [] := List.map_eq_nil_iff.mp hitems.symm
    exact ⟨rfl, before, [], rfl, rfl, hlinked, hstored⟩
  next_cons := by
    rintro walk item items ⟨before, placed, rfl, hitems, hlinked, hstored⟩
    obtain ⟨⟨slot, entry⟩, rest, rfl, rfl, rfl⟩ := List.map_eq_cons_iff.mp hitems.symm
    rw [List.map_cons] at hlinked
    refine ⟨hstored slot entry List.mem_cons_self, some slot, rest, ?_, rfl, hlinked.2, ?_⟩
    · have hnext : cache.recency.nextOf slot = (rest.map Prod.fst).head? := by
        rw [Recency.nextOf, hlinked.1, Option.bind_some, Option.or_none]
      change Walk.mk _ _ (cache.recency.nextOf slot) _ = _
      rw [hnext]
      rfl
    · exact fun other stored hmem => hstored other stored (List.mem_cons_of_mem _ hmem)
  remaining_eq := by
    rintro walk items ⟨before, placed, rfl, rfl, -, -⟩
    exact (List.length_map _).symm

/-- A new walk stands before all entries. -/
theorem Layout.shows_walk {placed : List (Nat × κ × ν)} (hlayout : cache.Layout placed) :
    cache.Shows cache.walk (placed.map Prod.snd) := by
  refine ⟨none, placed, ?_, rfl, hlayout.recency.linked, ?_⟩
  · rw [walk, walkFrom, hlayout.recency.head_eq, hlayout.recency.length_eq, List.length_map]
  · exact fun slot entry => (hlayout.stored_iff slot entry).mpr

/-- A walk visits the entries from the one used most recently on. -/
theorem Layout.calls_walk {placed : List (Nat × κ × ν)} (hlayout : cache.Layout placed)
    (count : Nat) :
    Cursor.calls count cache.walk = Cursor.visits (placed.map Prod.snd) count :=
  (yields_shows cache).calls_eq_visits count hlayout.shows_walk

end Walks

end LruCache

end Collections
