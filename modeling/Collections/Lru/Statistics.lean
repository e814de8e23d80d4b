import Collections.Literal

/-!
# Statistics of a cache

How often each kind of event happened to a cache, and the share of look-ups that
found their key.
-/

namespace Collections

/-- What a cache counts. -/
inductive CacheEvent where
  /-- A look-up found its key. -/
  | hit
  /-- A look-up did not find its key. -/
  | miss
  /-- A key was added. -/
  | insertion
  /-- The value of a key was replaced. -/
  | update
  /-- An entry was dropped to make room. -/
  | eviction
  deriving DecidableEq, Repr

/-- Each counter grows by one with a call, so no execution makes enough calls for a 64-bit
number to wrap. -/
structure CacheStatistics where
  hits : Nat
  misses : Nat
  insertions : Nat
  updates : Nat
  evictions : Nat
  deriving DecidableEq, Repr

namespace CacheStatistics

def zero : CacheStatistics :=
  ⟨0, 0, 0, 0, 0⟩

instance : Inhabited CacheStatistics := ⟨zero⟩

/-- Counts one event. -/
def record (statistics : CacheStatistics) : CacheEvent → CacheStatistics
  | .hit => { statistics with hits := statistics.hits + 1 }
  | .miss => { statistics with misses := statistics.misses + 1 }
  | .insertion => { statistics with insertions := statistics.insertions + 1 }
  | .update => { statistics with updates := statistics.updates + 1 }
  | .eviction => { statistics with evictions := statistics.evictions + 1 }

/-- The number of look-ups. -/
def lookups (statistics : CacheStatistics) : Nat :=
  statistics.hits + statistics.misses

/-- The share of look-ups that found their key, and zero before the first look-up. -/
def hitRatio (statistics : CacheStatistics) : Float :=
  if statistics.lookups = 0 then 0.0
  else Float.ofNat statistics.hits / Float.ofNat statistics.lookups

instance : Literal CacheStatistics where
  literal statistics :=
    Literal.record "LruCacheStatistics"
      [("hits", literal statistics.hits), ("misses", literal statistics.misses),
        ("insertions", literal statistics.insertions), ("updates", literal statistics.updates),
        ("evictions", literal statistics.evictions)]

end CacheStatistics

end Collections
