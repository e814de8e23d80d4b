import Collections.Cursor
import Collections.Lru.Listener
import Collections.Lru.Recency
import Collections.Lru.Statistics
import Collections.Settings.Cache
import Collections.Step
import Std.Data.HashMap

/-!
# Caches that drop the least recently used entry

A table from keys to values with a fixed number of entries.  A new key that finds
the cache full takes the place of the entry that was used least recently.  Entries
live in slots; an index leads from a key to its slot, and the recency of the slots
is kept apart from what they hold.  A slot that becomes free is the first one to be
used again.
-/

namespace Collections

universe u v w

structure LruCache (ε : Type u) (κ : Type v) (ν : Type w) [BEq κ] [Hashable κ] where
  settings : CacheSettings
  index : Std.HashMap κ Nat
  /-- What each slot holds: nothing if it is free. -/
  entries : Array (Option (κ × ν))
  recency : Recency
  /-- The free slots, the one freed last first. -/
  free : List Nat
  statistics : CacheStatistics
  listener : ε

namespace LruCache

variable {ε : Type u} {κ : Type v} {ν : Type w} [BEq κ] [Hashable κ]

/-- An empty cache that tells a listener of each entry it drops to make room. -/
def withListener (settings : CacheSettings) (listener : ε) : Except Fault (LruCache ε κ ν) :=
  settings.validate.map fun _ => ⟨settings, ∅, #[], .empty, [], .zero, listener⟩

def withSettings (settings : CacheSettings) : Except Fault (LruCache NoListener κ ν) :=
  withListener settings .silent

def withCapacity (capacity : UInt64) : Except Fault (LruCache NoListener κ ν) :=
  withSettings (.withCapacity capacity)

def capacity (cache : LruCache ε κ ν) : UInt64 :=
  cache.settings.capacity

def length (cache : LruCache ε κ ν) : Nat :=
  cache.recency.length

def isEmpty (cache : LruCache ε κ ν) : Bool :=
  cache.length == 0

def entryAt? (cache : LruCache ε κ ν) (slot : Nat) : Option (κ × ν) :=
  cache.entries[slot]?.join

/-- The entries, the one used most recently first. -/
def toList (cache : LruCache ε κ ν) : List (κ × ν) :=
  cache.recency.toList.filterMap cache.entryAt?

/-- Counts an event, unless the settings say not to. -/
def record (cache : LruCache ε κ ν) (event : CacheEvent) : LruCache ε κ ν :=
  if cache.settings.statisticsEnabled then
    { cache with statistics := cache.statistics.record event }
  else
    cache

def resetStatistics (cache : LruCache ε κ ν) : LruCache ε κ ν :=
  { cache with statistics := .zero }

/-! ## Questions that are no use of an entry -/

def contains (cache : LruCache ε κ ν) (key : κ) : Bool :=
  cache.index.contains key

def peek? (cache : LruCache ε κ ν) (key : κ) : Option ν :=
  cache.index[key]?.bind fun slot => (cache.entryAt? slot).map Prod.snd

/-- The entry used least recently, which the next eviction drops. -/
def oldest? (cache : LruCache ε κ ν) : Option (κ × ν) :=
  cache.recency.tail.bind cache.entryAt?

/-! ## Uses and changes -/

/-- Marks a slot as the one used most recently. -/
def touch (cache : LruCache ε κ ν) (slot : Nat) : LruCache ε κ ν :=
  { cache with recency := cache.recency.moveToHead slot }

/-- Empties a slot and frees it. -/
def vacate (cache : LruCache ε κ ν) (slot : Nat) : LruCache ε κ ν :=
  { cache with
    entries := cache.entries.setIfInBounds slot none
    recency := cache.recency.unlink slot
    free := slot :: cache.free }

/-- The value of a key, which becomes the one used most recently. -/
def get (cache : LruCache ε κ ν) (key : κ) : Option ν × LruCache ε κ ν :=
  match cache.index[key]? with
  | some slot => ((cache.entryAt? slot).map Prod.snd, (cache.touch slot).record .hit)
  | none => (none, cache.record .miss)

def remove (cache : LruCache ε κ ν) (key : κ) : Option ν × LruCache ε κ ν :=
  match cache.index[key]? with
  | some slot =>
    ((cache.entryAt? slot).map Prod.snd,
      ({ cache with index := cache.index.erase key } : LruCache ε κ ν).vacate slot)
  | none => (none, cache)

/-- Drops all entries and slots; nobody is told, and the statistics stay. -/
def clear (cache : LruCache ε κ ν) : LruCache ε κ ν :=
  { cache with index := ∅, entries := #[], recency := .empty, free := [] }

/-- The slot freed last, or else a new one. -/
def allocate (cache : LruCache ε κ ν) : Nat × LruCache ε κ ν :=
  match cache.free with
  | slot :: free => (slot, { cache with free := free })
  | [] =>
    (cache.entries.size,
      { cache with
        entries := cache.entries.push none
        recency := cache.recency.addSlot })

/-- Puts an entry into a new or freed slot, in front of all others. -/
def place (cache : LruCache ε κ ν) (key : κ) (value : ν) : LruCache ε κ ν :=
  let (slot, ready) := cache.allocate
  { ready with
    index := ready.index.insert key slot
    entries := ready.entries.setIfInBounds slot (some (key, value))
    recency := ready.recency.pushHead slot }

/-- Replaces the value in a slot and keeps the key that stands there. -/
def overwrite (cache : LruCache ε κ ν) (slot : Nat) (value : ν) : LruCache ε κ ν :=
  { cache with
    entries := cache.entries.modify slot (·.map fun entry => (entry.1, value)) }

section Listening

variable [EvictionListener ε κ ν]

/-- Tells the listener of an entry and takes its key out of the index. -/
def dismiss (cache : LruCache ε κ ν) (entry : κ × ν) : LruCache ε κ ν :=
  { cache with
    listener := EvictionListener.onEvict cache.listener entry.1 entry.2
    index := cache.index.erase entry.1 }

/-- Drops the entry used least recently. -/
def evict (cache : LruCache ε κ ν) : Step (LruCache ε κ ν) Unit :=
  match cache.recency.tail with
  | none => .quiet cache ()
  | some slot =>
    let capacity := cache.capacity
    let dismissed :=
      match cache.entryAt? slot with
      | some entry => cache.dismiss entry
      | none => cache
    ⟨(dismissed.vacate slot).record .eviction, (), [.entryEvicted slot capacity]⟩

/-- Adds an absent key, dropping an entry first if the cache is full. -/
def insertNew (cache : LruCache ε κ ν) (key : κ) (value : ν) : Step (LruCache ε κ ν) Unit :=
  let room := if cache.capacity.toNat ≤ cache.length then cache.evict else .quiet cache ()
  room.andThen fun _ ready => .quiet ((ready.place key value).record .insertion) ()

/-- Adds a key or replaces its value, and returns the value it had. -/
def put (cache : LruCache ε κ ν) (key : κ) (value : ν) : Step (LruCache ε κ ν) (Option ν) :=
  match cache.index[key]? with
  | some slot =>
    .quiet (((cache.touch slot).record .update).overwrite slot value)
      ((cache.entryAt? slot).map Prod.snd)
  | none => (cache.insertNew key value).map fun _ => none

/-- Adds a key only if it is absent, and tells whether it was. -/
def tryAdd (cache : LruCache ε κ ν) (key : κ) (value : ν) : Step (LruCache ε κ ν) Bool :=
  if cache.contains key then .quiet cache false
  else (cache.insertNew key value).map fun _ => true

end Listening

instance [Literal κ] [Literal ν] : Literal (LruCache ε κ ν) where
  literal cache := Literal.map cache.toList

/-- A walk from the entry used most recently to the one used least recently. -/
structure Walk (κ : Type v) (ν : Type w) where
  entries : Array (Option (κ × ν))
  recency : Recency
  place : Option Nat
  remaining : Nat

def walk (cache : LruCache ε κ ν) : Walk κ ν :=
  ⟨cache.entries, cache.recency, cache.recency.head, cache.recency.length⟩

def Walk.next (walk : Walk κ ν) : Option (κ × ν) × Walk κ ν :=
  match walk.place with
  | some slot =>
    (walk.entries[slot]?.join,
      { walk with place := walk.recency.nextOf slot, remaining := walk.remaining - 1 })
  | none => (none, walk)

instance : Cursor (Walk κ ν) (κ × ν) where
  remaining := Walk.remaining
  next := Walk.next

end LruCache

end Collections
