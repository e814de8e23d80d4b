import Mathlib
import Collections.Proofs.Lru.CacheRuns

/-!
# Slots that a call of a cache uses

A call of a cache leads to a few slots only: the slot of its key, those that the links of
this slot lead to, and those at the ends of the order.  Whatever stands in another slot makes
no difference to the call, and it still stands there afterwards.
-/

namespace Collections

universe u v w

namespace Recency

/-! ## Links -/

/-- The slots whose links are used when a slot is taken out of its place. -/
def unlinkSlots (recency : Recency) (slot : Nat) : List Nat :=
  slot :: ((recency.previousOf slot).toList ++ (recency.nextOf slot).toList)

/-- The slots whose links are used when a slot is brought to the head. -/
def moveSlots (recency : Recency) (slot : Nat) : List Nat :=
  if recency.head = some slot then []
  else recency.unlinkSlots slot ++ slot :: (recency.unlink slot).head.toList

/-- The order with another link in a slot. -/
def disturb (recency : Recency) (slot : Nat) (link : Link) : Recency :=
  { recency with links := recency.links.setIfInBounds slot link }

section Disturbed

variable (recency : Recency) {slot other : Nat} (link : Link)

theorem nextOf_disturb (hother : slot ≠ other) :
    (recency.disturb slot link).nextOf other = recency.nextOf other := by
  rw [nextOf, disturb, Array.getElem?_setIfInBounds_ne hother, nextOf]

theorem previousOf_disturb (hother : slot ≠ other) :
    (recency.disturb slot link).previousOf other = recency.previousOf other := by
  rw [previousOf, disturb, Array.getElem?_setIfInBounds_ne hother, previousOf]

theorem linkForward_disturb {before : Option Nat} (hbefore : before ≠ some slot)
    (target : Option Nat) :
    (recency.disturb slot link).linkForward before target =
      (recency.linkForward before target).disturb slot link := by
  cases before with
  | none => rfl
  | some other =>
      have hother : slot ≠ other := ne_of_apply_ne some hbefore.symm
      exact congrArg (Recency.mk · recency.head recency.tail recency.length)
        (modify_setIfInBounds recency.links hother link _)

theorem linkBackward_disturb {after : Option Nat} (hafter : after ≠ some slot)
    (target : Option Nat) :
    (recency.disturb slot link).linkBackward after target =
      (recency.linkBackward after target).disturb slot link := by
  cases after with
  | none => rfl
  | some other =>
      have hother : slot ≠ other := ne_of_apply_ne some hafter.symm
      exact congrArg (Recency.mk · recency.head recency.tail recency.length)
        (modify_setIfInBounds recency.links hother link _)

theorem disturb_comm (hother : slot ≠ other) (placed : Link) :
    (recency.disturb slot link).disturb other placed =
      (recency.disturb other placed).disturb slot link :=
  congrArg (Recency.mk · recency.head recency.tail recency.length)
    (Array.setIfInBounds_comm link placed hother)

theorem addSlot_disturb (hslot : slot ≠ recency.links.size) :
    (recency.disturb slot link).addSlot = recency.addSlot.disturb slot link :=
  congrArg (Recency.mk · recency.head recency.tail recency.length)
    (push_setIfInBounds recency.links hslot link _)

theorem pushHead_disturb (hother : slot ≠ other) (hhead : recency.head ≠ some slot) :
    (recency.disturb slot link).pushHead other =
      (recency.pushHead other).disturb slot link := by
  have hlinked : ((recency.disturb slot link).disturb other ⟨none, recency.head⟩).linkBackward
      recency.head (some other) =
        ((recency.disturb other ⟨none, recency.head⟩).linkBackward recency.head
          (some other)).disturb slot link := by
    rw [disturb_comm recency link hother, linkBackward_disturb _ link hhead]
  exact congrArg (fun linked : Recency =>
    ({ linked with head := some other, length := recency.length + 1 } : Recency)) hlinked

theorem unlink_disturb (hunused : slot ∉ recency.unlinkSlots other) :
    (recency.disturb slot link).unlink other = (recency.unlink other).disturb slot link := by
  simp only [unlinkSlots, List.mem_cons, List.mem_append, Option.mem_toList, not_or] at hunused
  obtain ⟨hother, hprevious, hnext⟩ := hunused
  rw [unlink, unlink, nextOf_disturb recency link hother, previousOf_disturb recency link hother,
    linkForward_disturb recency link hprevious, linkBackward_disturb _ link hnext]
  exact congrArg (Recency.mk · _ _ _) (Array.setIfInBounds_comm _ _ hother)

theorem moveToHead_disturb (hunused : slot ∉ recency.moveSlots other) :
    (recency.disturb slot link).moveToHead other =
      (recency.moveToHead other).disturb slot link := by
  rw [moveSlots] at hunused
  rw [moveToHead, moveToHead]
  change (if recency.head = some other then _ else _) = _
  split
  next hhead => rfl
  next hhead =>
    rw [if_neg hhead, List.mem_append, List.mem_cons, Option.mem_toList, not_or, not_or]
      at hunused
    obtain ⟨hunlinked, hother, hfirst⟩ := hunused
    rw [unlink_disturb recency link hunlinked, pushHead_disturb _ link hother hfirst]

end Disturbed

end Recency

namespace LruCache

variable {ε : Type u} {κ : Type v} {ν : Type w} [BEq κ] [Hashable κ]

/-! ## Slots of a call -/

section Slots

variable [EvictionListener ε κ ν]

/-- The occupied slots that the insertion of a new key leads to: the entry to be dropped
with its neighbours, and the head that the new slot is put in front of. -/
def insertionSlots (cache : LruCache ε κ ν) : List Nat :=
  (if cache.capacity.toNat ≤ cache.length then
    cache.recency.tail.toList.flatMap cache.recency.unlinkSlots
  else []) ++ cache.makeRoom.recency.head.toList

/-- The slots whose entries or links a call looks at or changes, apart from a slot that it
allocates. -/
def usedSlots (cache : LruCache ε κ ν) : CacheCall κ ν → List Nat
  | .put key _ =>
    match cache.index[key]? with
    | some slot => slot :: cache.recency.moveSlots slot
    | none => cache.insertionSlots
  | .tryAdd key _ => if cache.contains key then [] else cache.insertionSlots
  | .get key => cache.index[key]?.toList.flatMap fun slot => slot :: cache.recency.moveSlots slot
  | .peek key => cache.index[key]?.toList
  | .contains _ => []
  | .remove key => cache.index[key]?.toList.flatMap cache.recency.unlinkSlots
  | .clear => []
  | .oldest => cache.recency.tail.toList
  | .resetStatistics => []
  | .iterate count =>
    (List.range count).filterMap (Recency.follow cache.recency.nextOf cache.recency.head)

/-- The slot that a call allocates if it adds a key. -/
def allocatedSlots (cache : LruCache ε κ ν) : CacheCall κ ν → List Nat
  | .put key _ =>
    match cache.index[key]? with
    | some _ => []
    | none => [cache.makeRoom.allocate.1]
  | .tryAdd key _ => if cache.contains key then [] else [cache.makeRoom.allocate.1]
  | _ => []

end Slots

/-- The cache with something else in a slot: a call that does not depend on it, and does not
change it, commutes with this. -/
def disturb (cache : LruCache ε κ ν) (slot : Nat) (entry : Option (κ × ν))
    (link : Recency.Link) : LruCache ε κ ν :=
  { cache with
    entries := cache.entries.setIfInBounds slot entry
    recency := cache.recency.disturb slot link }

/-! ## Changes beside another slot -/

section Disturbed

variable (cache : LruCache ε κ ν) {slot other : Nat} (entry : Option (κ × ν))
variable (link : Recency.Link)

@[simp]
theorem index_disturb : (cache.disturb slot entry link).index = cache.index := rfl

@[simp]
theorem contains_disturb (key : κ) :
    (cache.disturb slot entry link).contains key = cache.contains key := rfl

@[simp]
theorem tail_disturb : (cache.disturb slot entry link).recency.tail = cache.recency.tail := rfl

theorem entryAt?_disturb (hother : slot ≠ other) :
    (cache.disturb slot entry link).entryAt? other = cache.entryAt? other := by
  rw [entryAt?, disturb, Array.getElem?_setIfInBounds_ne hother, entryAt?]

theorem record_disturb (event : CacheEvent) :
    (cache.disturb slot entry link).record event =
      (cache.record event).disturb slot entry link := by
  rw [LruCache.record, LruCache.record]
  change (if cache.settings.statisticsEnabled then _ else _) = _
  split <;> rfl

theorem touch_disturb (hunused : slot ∉ cache.recency.moveSlots other) :
    (cache.disturb slot entry link).touch other = (cache.touch other).disturb slot entry link := by
  rw [touch, disturb, Recency.moveToHead_disturb cache.recency link hunused]
  rfl

theorem overwrite_disturb (hother : slot ≠ other) (value : ν) :
    (cache.disturb slot entry link).overwrite other value =
      (cache.overwrite other value).disturb slot entry link := by
  rw [overwrite, disturb, modify_setIfInBounds cache.entries hother]
  rfl

theorem vacate_disturb (hunused : slot ∉ cache.recency.unlinkSlots other) :
    (cache.disturb slot entry link).vacate other =
      (cache.vacate other).disturb slot entry link := by
  have hother : slot ≠ other := List.ne_of_not_mem_cons hunused
  rw [vacate, disturb, Recency.unlink_disturb cache.recency link hunused,
    Array.setIfInBounds_comm entry none hother]
  rfl

/-- The next slot is the same, and it is not made in place of another one. -/
theorem allocate_disturb (hsize : cache.recency.links.size = cache.entries.size)
    (hallocated : slot ≠ cache.allocate.1) :
    (cache.disturb slot entry link).allocate =
      (cache.allocate.1, cache.allocate.2.disturb slot entry link) := by
  obtain ⟨settings, index, entries, recency, free, statistics, listener⟩ := cache
  cases free with
  | cons first free => rfl
  | nil =>
      have hentries : slot ≠ entries.size := hallocated
      have hlinks : slot ≠ recency.links.size := fun heq => hentries (heq.trans hsize)
      apply Prod.ext
      · exact Array.size_setIfInBounds
      · exact congrArg₂ (LruCache.mk settings index · · [] statistics listener)
          (push_setIfInBounds entries hentries entry none)
          (Recency.addSlot_disturb recency link hlinks)

theorem place_disturb (hsize : cache.recency.links.size = cache.entries.size)
    (hallocated : slot ≠ cache.allocate.1) (hhead : cache.recency.head ≠ some slot)
    (key : κ) (value : ν) :
    (cache.disturb slot entry link).place key value =
      (cache.place key value).disturb slot entry link := by
  have hkept : cache.allocate.2.recency.head = cache.recency.head := by
    rw [allocate]
    cases cache.free <;> rfl
  rw [place, place, allocate_disturb cache entry link hsize hallocated]
  dsimp only
  rw [disturb, Recency.pushHead_disturb _ link hallocated (hkept ▸ hhead),
    Array.setIfInBounds_comm entry _ hallocated]
  rfl

theorem size_record (hsize : cache.recency.links.size = cache.entries.size)
    (event : CacheEvent) :
    (cache.record event).recency.links.size = (cache.record event).entries.size := by
  rw [LruCache.record]
  split <;> exact hsize

section Listening

variable [EvictionListener ε κ ν]

theorem evict_disturb
    (hunused : slot ∉ cache.recency.tail.toList.flatMap cache.recency.unlinkSlots) :
    (cache.disturb slot entry link).evict =
      { cache.evict with state := cache.evict.state.disturb slot entry link } := by
  rw [evict, evict, tail_disturb]
  cases htail : cache.recency.tail with
  | none => rfl
  | some last =>
      rw [htail, Option.toList_some, List.flatMap_singleton] at hunused
      have hother : slot ≠ last := List.ne_of_not_mem_cons hunused
      dsimp only
      rw [entryAt?_disturb cache entry link hother]
      cases cache.entryAt? last with
      | none =>
          dsimp only
          rw [vacate_disturb cache entry link hunused, record_disturb]
          rfl
      | some dropped =>
          have hdismissed : (cache.disturb slot entry link).dismiss dropped =
              (cache.dismiss dropped).disturb slot entry link := rfl
          dsimp only
          rw [hdismissed, vacate_disturb (cache.dismiss dropped) entry link hunused, record_disturb]
          rfl

theorem size_makeRoom (hsize : cache.recency.links.size = cache.entries.size) :
    cache.makeRoom.recency.links.size = cache.makeRoom.entries.size := by
  rw [makeRoom]
  split
  · rw [evict]
    cases cache.recency.tail with
    | none => exact hsize
    | some last =>
        apply size_record
        rw [vacate, Recency.size_unlink, Array.size_setIfInBounds]
        cases cache.entryAt? last <;> exact hsize
  · exact hsize

theorem insertNew_disturb (hsize : cache.recency.links.size = cache.entries.size)
    (hunused : slot ∉ cache.insertionSlots) (hallocated : slot ≠ cache.makeRoom.allocate.1)
    (key : κ) (value : ν) :
    (cache.disturb slot entry link).insertNew key value =
      { cache.insertNew key value with
        state := (cache.insertNew key value).state.disturb slot entry link } := by
  rw [insertionSlots, List.mem_append, Option.mem_toList, not_or] at hunused
  obtain ⟨hdropped, hhead⟩ := hunused
  -- Room is made in the same way, so the new entry is placed into the disturbed remainder.
  have hroom : (if cache.capacity.toNat ≤ cache.length then
      (cache.disturb slot entry link).evict else .quiet (cache.disturb slot entry link) ()) =
        { (if cache.capacity.toNat ≤ cache.length then cache.evict else .quiet cache ()) with
          state := cache.makeRoom.disturb slot entry link } := by
    rw [makeRoom]
    split
    next hfull =>
      rw [if_pos hfull] at hdropped
      exact evict_disturb cache entry link hdropped
    next => rfl
  have hplaced := place_disturb cache.makeRoom entry link (cache.size_makeRoom hsize)
    hallocated hhead key value
  have hstart : (cache.disturb slot entry link).insertNew key value =
      (if cache.capacity.toNat ≤ cache.length then
        (cache.disturb slot entry link).evict
      else .quiet (cache.disturb slot entry link) ()).andThen fun _ ready =>
        .quiet ((ready.place key value).record .insertion) () := rfl
  rw [hstart, hroom, Step.andThen]
  dsimp only [Step.quiet]
  rw [hplaced, record_disturb]
  rfl

end Listening

/-! ## Calls beside another slot -/

section Calls

variable [EvictionListener ε κ ν]

theorem put_disturb (hsize : cache.recency.links.size = cache.entries.size) {key : κ} {value : ν}
    (hunused : slot ∉ cache.usedSlots (.put key value))
    (hallocated : slot ∉ cache.allocatedSlots (.put key value)) :
    (cache.disturb slot entry link).put key value =
      { cache.put key value with
        state := (cache.put key value).state.disturb slot entry link } := by
  rw [usedSlots] at hunused
  rw [allocatedSlots] at hallocated
  rw [put, put, index_disturb]
  cases hfound : cache.index[key]? with
  | none =>
      rw [hfound] at hunused hallocated
      have hother : slot ≠ cache.makeRoom.allocate.1 := List.ne_of_not_mem_cons hallocated
      dsimp only
      rw [insertNew_disturb cache entry link hsize hunused hother]
      rfl
  | some found =>
      rw [hfound, List.mem_cons, not_or] at hunused
      obtain ⟨hother, hmoved⟩ := hunused
      dsimp only [Step.quiet]
      rw [entryAt?_disturb cache entry link hother, touch_disturb cache entry link hmoved,
        record_disturb, overwrite_disturb _ entry link hother]

theorem tryAdd_disturb (hsize : cache.recency.links.size = cache.entries.size) {key : κ}
    {value : ν} (hunused : slot ∉ cache.usedSlots (.tryAdd key value))
    (hallocated : slot ∉ cache.allocatedSlots (.tryAdd key value)) :
    (cache.disturb slot entry link).tryAdd key value =
      { cache.tryAdd key value with
        state := (cache.tryAdd key value).state.disturb slot entry link } := by
  rw [usedSlots] at hunused
  rw [allocatedSlots] at hallocated
  rw [tryAdd, tryAdd, contains_disturb]
  split
  next hknown => rfl
  next habsent =>
    rw [if_neg habsent] at hunused hallocated
    have hother : slot ≠ cache.makeRoom.allocate.1 := List.ne_of_not_mem_cons hallocated
    rw [insertNew_disturb cache entry link hsize hunused hother]
    rfl

theorem get_disturb {key : κ} (hunused : slot ∉ cache.usedSlots (.get key)) :
    (cache.disturb slot entry link).get key =
      ((cache.get key).1, (cache.get key).2.disturb slot entry link) := by
  rw [usedSlots] at hunused
  rw [get, get, index_disturb]
  cases hfound : cache.index[key]? with
  | none =>
      dsimp only
      rw [record_disturb]
  | some found =>
      rw [hfound, Option.toList_some, List.flatMap_singleton, List.mem_cons, not_or] at hunused
      obtain ⟨hother, hmoved⟩ := hunused
      dsimp only
      rw [entryAt?_disturb cache entry link hother, touch_disturb cache entry link hmoved,
        record_disturb]

theorem peek?_disturb {key : κ} (hunused : slot ∉ cache.usedSlots (.peek key)) :
    (cache.disturb slot entry link).peek? key = cache.peek? key := by
  rw [usedSlots, Option.mem_toList] at hunused
  rw [peek?, peek?, index_disturb]
  cases hfound : cache.index[key]? with
  | none => rfl
  | some found =>
      have hother : slot ≠ found := fun heq => hunused (heq ▸ hfound)
      rw [Option.bind_some, Option.bind_some, entryAt?_disturb cache entry link hother]

theorem remove_disturb {key : κ} (hunused : slot ∉ cache.usedSlots (.remove key)) :
    (cache.disturb slot entry link).remove key =
      ((cache.remove key).1, (cache.remove key).2.disturb slot entry link) := by
  rw [usedSlots] at hunused
  rw [remove, remove, index_disturb]
  cases hfound : cache.index[key]? with
  | none => rfl
  | some found =>
      rw [hfound, Option.toList_some, List.flatMap_singleton] at hunused
      have hother : slot ≠ found := List.ne_of_not_mem_cons hunused
      dsimp only
      rw [entryAt?_disturb cache entry link hother]
      exact congrArg (Prod.mk _)
        (vacate_disturb { cache with index := cache.index.erase key } entry link hunused)

theorem oldest?_disturb (hunused : slot ∉ cache.usedSlots .oldest) :
    (cache.disturb slot entry link).oldest? = cache.oldest? := by
  rw [usedSlots, Option.mem_toList] at hunused
  rw [oldest?, oldest?, tail_disturb]
  cases hlast : cache.recency.tail with
  | none => rfl
  | some last =>
      have hother : slot ≠ last := fun heq => hunused (heq ▸ hlast)
      exact entryAt?_disturb cache entry link hother

omit [EvictionListener ε κ ν] in
/-- A walk looks only at the slots that it comes to. -/
theorem calls_disturb (count : Nat) :
    ∀ (place : Option Nat) (remaining : Nat),
      (∀ steps < count, Recency.follow cache.recency.nextOf place steps ≠ some slot) →
        Cursor.calls count (Walk.mk (cache.entries.setIfInBounds slot entry)
          (cache.recency.disturb slot link) place remaining) =
            Cursor.calls count (Walk.mk cache.entries cache.recency place remaining) := by
  induction count with
  | zero => exact fun place remaining hunmet => rfl
  | succ count ih =>
      intro place remaining hunmet
      cases place with
      | none =>
          have hrest := ih none remaining fun steps hsteps =>
            hunmet steps (Nat.lt_succ_of_lt hsteps)
          exact congrArg (List.cons _) hrest
      | some first =>
          have hother : slot ≠ first := ne_of_apply_ne some (hunmet 0 (Nat.succ_pos count)).symm
          have hlater : ∀ steps < count, Recency.follow cache.recency.nextOf
              (cache.recency.nextOf first) steps ≠ some slot := by
            intro steps hsteps
            have hmeets := hunmet (steps + 1) (Nat.succ_lt_succ hsteps)
            rwa [Recency.follow_succ] at hmeets
          rw [Cursor.calls, Cursor.calls]
          dsimp only [Cursor.next, Walk.next, Cursor.remaining]
          rw [Array.getElem?_setIfInBounds_ne hother,
            Recency.nextOf_disturb cache.recency link hother, ih _ _ hlater]

/-- A call does the same whatever stands in a slot that it neither uses nor allocates, and
leaves it there. -/
theorem perform_disturb (hsize : cache.recency.links.size = cache.entries.size)
    {call : CacheCall κ ν} (hunused : slot ∉ cache.usedSlots call)
    (hallocated : slot ∉ cache.allocatedSlots call) :
    (cache.disturb slot entry link).perform call =
      ((cache.perform call).1, (cache.perform call).2.disturb slot entry link) := by
  cases call with
  | put key value =>
      rw [perform, perform, put_disturb cache entry link hsize hunused hallocated]
  | tryAdd key value =>
      rw [perform, perform, tryAdd_disturb cache entry link hsize hunused hallocated]
  | get key => rw [perform, perform, get_disturb cache entry link hunused]
  | peek key => rw [perform, perform, peek?_disturb cache entry link hunused]
  | contains key => rfl
  | remove key => rw [perform, perform, remove_disturb cache entry link hunused]
  | clear => rfl
  | oldest => rw [perform, perform, oldest?_disturb cache entry link hunused]
  | resetStatistics => rfl
  | iterate count =>
      have hunmet : ∀ steps < count,
          Recency.follow cache.recency.nextOf cache.recency.head steps ≠ some slot :=
        fun steps hsteps hmet => hunused (List.mem_filterMap.mpr
          ⟨steps, List.mem_range.mpr hsteps, hmet⟩)
      exact congrArg (fun visits => (CacheAnswer.visits visits, cache.disturb slot entry link))
        (calls_disturb cache entry link count cache.recency.head cache.recency.length hunmet)

end Calls

end Disturbed

end LruCache

end Collections
