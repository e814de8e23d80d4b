import Mathlib
import Collections.Lru.Cache
import Collections.Proofs.Cursor
import Collections.Proofs.DistinctKeys
import Collections.Proofs.Run

/-!
# Lists of recent entries

What a cache stands for: the entries in the order of their last use, the entries that
were dropped to make room, in the order in which they were dropped, and the statistics.
A call is described by what it does to these.
-/

namespace Collections

universe u v w

structure RecentEntries (κ : Type v) (ν : Type w) where
  /-- The entry used most recently first. -/
  entries : List (κ × ν)
  /-- The entries that were dropped to make room, oldest drop first. -/
  evicted : List (κ × ν)
  statistics : CacheStatistics

/-- A call of a cache. -/
inductive CacheCall (κ : Type v) (ν : Type w) where
  | put (key : κ) (value : ν)
  | tryAdd (key : κ) (value : ν)
  | get (key : κ)
  | peek (key : κ)
  | contains (key : κ)
  | remove (key : κ)
  | clear
  | oldest
  | resetStatistics
  /-- A number of calls of a walk over the entries. -/
  | iterate (count : Nat)

/-- What a cache answers to a call. -/
inductive CacheAnswer (κ : Type v) (ν : Type w) where
  | value (found : Option ν)
  | flag (holds : Bool)
  | entry (found : Option (κ × ν))
  | visits (items : List (Option (κ × ν) × Nat))
  | done

namespace RecentEntries

variable {κ : Type v} {ν : Type w}

def empty : RecentEntries κ ν :=
  ⟨[], [], .zero⟩

/-- Counts an event, unless the settings say not to. -/
def record (settings : CacheSettings) (recent : RecentEntries κ ν) (event : CacheEvent) :
    RecentEntries κ ν :=
  if settings.statisticsEnabled then
    { recent with statistics := recent.statistics.record event }
  else
    recent

/-- Drops the last entry if there are as many entries as there may be. -/
def makeRoom (settings : CacheSettings) (recent : RecentEntries κ ν) : RecentEntries κ ν :=
  if recent.entries.length = settings.capacity.toNat then
    record settings
      { recent with
        entries := recent.entries.dropLast
        evicted := recent.evicted ++ recent.entries.getLast?.toList }
      .eviction
  else
    recent

/-- Puts an entry with a new key in front of all others. -/
def insert (settings : CacheSettings) (recent : RecentEntries κ ν) (key : κ) (value : ν) :
    RecentEntries κ ν :=
  let ready := recent.makeRoom settings
  record settings { ready with entries := (key, value) :: ready.entries } .insertion

variable [BEq κ]

def find? (recent : RecentEntries κ ν) (key : κ) : Option (κ × ν) :=
  recent.entries.find? fun entry => entry.1 == key

def erase (recent : RecentEntries κ ν) (key : κ) : RecentEntries κ ν :=
  { recent with entries := recent.entries.filter fun entry => !(entry.1 == key) }

/-- Puts an entry in front in place of the one with its key. -/
def bringToFront (recent : RecentEntries κ ν) (entry : κ × ν) : RecentEntries κ ν :=
  { recent with entries := entry :: (recent.erase entry.1).entries }

/-- The answer to a call and what it does to the entries. -/
def perform (settings : CacheSettings) (recent : RecentEntries κ ν) :
    CacheCall κ ν → CacheAnswer κ ν × RecentEntries κ ν
  | .put key value =>
    match recent.find? key with
    | some stored =>
      (.value (some stored.2),
        (recent.bringToFront (stored.1, value)).record settings .update)
    | none => (.value none, recent.insert settings key value)
  | .tryAdd key value =>
    match recent.find? key with
    | some _ => (.flag false, recent)
    | none => (.flag true, recent.insert settings key value)
  | .get key =>
    match recent.find? key with
    | some stored => (.value (some stored.2), (recent.bringToFront stored).record settings .hit)
    | none => (.value none, recent.record settings .miss)
  | .peek key => (.value ((recent.find? key).map Prod.snd), recent)
  | .contains key => (.flag (recent.find? key).isSome, recent)
  | .remove key => (.value ((recent.find? key).map Prod.snd), recent.erase key)
  | .clear => (.done, { recent with entries := [] })
  | .oldest => (.entry recent.entries.getLast?, recent)
  | .resetStatistics => (.done, { recent with statistics := .zero })
  | .iterate count => (.visits (Cursor.visits recent.entries count), recent)

/-! ## Frames -/

section Frames

variable (settings : CacheSettings) {recent : RecentEntries κ ν}

omit [BEq κ] in
@[simp]
theorem entries_record (recent : RecentEntries κ ν) (event : CacheEvent) :
    (recent.record settings event).entries = recent.entries := by
  rw [record]
  split <;> rfl

theorem equal_of_find? {key : κ} {entry : κ × ν} (hfound : recent.find? key = some entry) :
    (entry.1 == key) = true := by
  have hmatches := List.find?_some hfound
  exact hmatches

theorem erase_congr [EquivBEq κ] (recent : RecentEntries κ ν) {key other : κ}
    (hkey : (key == other) = true) : recent.erase key = recent.erase other := by
  have hequal : ∀ stored : κ, (stored == key) = (stored == other) := fun stored =>
    BEq.congr_right hkey
  simp only [erase, hequal]

theorem erase_of_none {key : κ} (habsent : recent.find? key = none) :
    recent.erase key = recent := by
  have hkept : recent.entries.filter (fun entry => !(entry.1 == key)) = recent.entries := by
    apply List.filter_eq_self.mpr
    intro entry hentry
    simpa using List.find?_eq_none.mp habsent entry hentry
  rw [erase, hkept]

omit [BEq κ] in
theorem entries_makeRoom (recent : RecentEntries κ ν) :
    (recent.makeRoom settings).entries =
      if recent.entries.length = settings.capacity.toNat then recent.entries.dropLast
      else recent.entries := by
  rw [makeRoom]
  split
  · exact entries_record settings _ _
  · rfl

theorem find?_makeRoom {key : κ} (habsent : recent.find? key = none) :
    (recent.makeRoom settings).find? key = none := by
  rw [makeRoom]
  split
  · rw [find?, entries_record, List.find?_eq_none]
    intro entry hentry
    exact List.find?_eq_none.mp habsent entry (List.mem_of_mem_dropLast hentry)
  · exact habsent

omit [BEq κ] in
theorem length_makeRoom_ne (recent : RecentEntries κ ν)
    (hcapacity : 0 < settings.capacity.toNat) :
    (recent.makeRoom settings).entries.length ≠ settings.capacity.toNat := by
  rw [makeRoom]
  split
  next hfull =>
    rw [entries_record, List.length_dropLast, hfull]
    exact Nat.ne_of_lt (Nat.sub_lt hcapacity Nat.one_pos)
  next hroom => exact hroom

end Frames

end RecentEntries

/-! ## Calls of a cache -/

namespace LruCache

variable {ε : Type u} {κ : Type v} {ν : Type w} [BEq κ] [Hashable κ] [EvictionListener ε κ ν]

def perform (cache : LruCache ε κ ν) : CacheCall κ ν → CacheAnswer κ ν × LruCache ε κ ν
  | .put key value =>
    let step := cache.put key value
    (.value step.result, step.state)
  | .tryAdd key value =>
    let step := cache.tryAdd key value
    (.flag step.result, step.state)
  | .get key =>
    let result := cache.get key
    (.value result.1, result.2)
  | .peek key => (.value (cache.peek? key), cache)
  | .contains key => (.flag (cache.contains key), cache)
  | .remove key =>
    let result := cache.remove key
    (.value result.1, result.2)
  | .clear => (.done, cache.clear)
  | .oldest => (.entry cache.oldest?, cache)
  | .resetStatistics => (.done, cache.resetStatistics)
  | .iterate count => (.visits (Cursor.calls count cache.walk), cache)

/-- A call with what it logs. -/
def step (cache : LruCache ε κ ν) : CacheCall κ ν → Step (LruCache ε κ ν) (CacheAnswer κ ν)
  | .put key value => (cache.put key value).map .value
  | .tryAdd key value => (cache.tryAdd key value).map .flag
  | call => .ofPair (cache.perform call)

theorem perform_eq_step (cache : LruCache ε κ ν) (call : CacheCall κ ν) :
    cache.perform call = ((cache.step call).result, (cache.step call).state) := by
  cases call <;> rfl

end LruCache

end Collections
