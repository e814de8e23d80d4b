import Collections.Settings.Settings

/-!
# Settings of a cache

The number of entries that a cache holds at most, and whether it counts what
happens to it.
-/

namespace Collections

structure CacheSettings where
  capacity : UInt64
  statisticsEnabled : Bool
  deriving DecidableEq, Repr

namespace CacheSettings

def standard : CacheSettings := ⟨1024, true⟩

instance : Inhabited CacheSettings := ⟨standard⟩

/-- The standard settings with another capacity. -/
def withCapacity (capacity : UInt64) : CacheSettings :=
  { standard with capacity := capacity }

/-- A cache must be able to hold an entry. -/
def validate (settings : CacheSettings) : Except Fault Unit :=
  if settings.capacity = 0 then .error (.parameter .zeroCacheCapacity) else .ok ()

def schema : Json.Schema :=
  ⟨"LruCacheConfig", [⟨"capacity", .count⟩, ⟨"enable_statistics", .flag⟩]⟩

instance : Settings CacheSettings where
  schema := schema
  toRecord settings := (settings.capacity, settings.statisticsEnabled, ())
  ofRecord record := ⟨record.1, record.2.1⟩
  validate := validate
  standard := standard
  performance := ⟨8192, false⟩
  memory := ⟨256, false⟩
  read environment stem :=
    ⟨environment.valueOr (stem ++ "LRU_CAPACITY") standard.capacity,
      environment.flagOr (stem ++ "LRU_STATISTICS") standard.statisticsEnabled⟩

instance : Literal CacheSettings where
  literal settings :=
    Literal.record "LruCacheConfig"
      [("capacity", literal settings.capacity),
        ("enable_statistics", literal settings.statisticsEnabled)]

end CacheSettings

end Collections
