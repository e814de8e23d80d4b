import Mathlib
import Collections.Proofs.Lru.Layout
import Collections.Proofs.Lru.RecentEntries

/-!
# Runs of a cache

A cache follows a list of recent entries if its slots hold these entries in this order,
it has the same statistics, and its listener was told of the dropped entries in turn.
Each call keeps a cache following the list and has the answer that the list has, so a
whole run does, through any reuse of slots.
-/

namespace Collections

universe u v w

namespace LruCache

variable {ε : Type u} {κ : Type v} {ν : Type w} [BEq κ] [Hashable κ] [EvictionListener ε κ ν]

/-- A listener after it was told of these entries, one after the other. -/
def notify (listener : ε) (entries : List (κ × ν)) : ε :=
  entries.foldl (fun told entry => EvictionListener.onEvict told entry.1 entry.2) listener

/-- A cache with these settings, whose listener was told of nothing at first, is in the
state that the recent entries describe. -/
structure Follows (settings : CacheSettings) (listener : ε) (cache : LruCache ε κ ν)
    (recent : RecentEntries κ ν) : Prop where
  layout : ∃ placed, cache.Layout placed ∧ placed.map Prod.snd = recent.entries
  settings_eq : cache.settings = settings
  statistics_eq : cache.statistics = recent.statistics
  listener_eq : cache.listener = notify listener recent.evicted

/-! ## Parts that a change leaves as they are -/

section Frames

variable (cache : LruCache ε κ ν)

omit [EvictionListener ε κ ν]

@[simp]
theorem settings_place (key : κ) (value : ν) :
    (cache.place key value).settings = cache.settings := by
  rw [place, allocate]
  cases cache.free <;> rfl

@[simp]
theorem statistics_place (key : κ) (value : ν) :
    (cache.place key value).statistics = cache.statistics := by
  rw [place, allocate]
  cases cache.free <;> rfl

@[simp]
theorem listener_place (key : κ) (value : ν) :
    (cache.place key value).listener = cache.listener := by
  rw [place, allocate]
  cases cache.free <;> rfl

theorem overwrite_record (event : CacheEvent) (slot : Nat) (value : ν) :
    (cache.record event).overwrite slot value = (cache.overwrite slot value).record event := by
  rw [LruCache.record, LruCache.record]
  change _ = if cache.settings.statisticsEnabled then _ else _
  split <;> rfl

end Frames

/-! ## What a follower shows -/

section Shown

variable {settings : CacheSettings} {listener : ε} {cache : LruCache ε κ ν}
variable {recent : RecentEntries κ ν} {key : κ}

theorem Follows.index_eq_none (hfollows : Follows settings listener cache recent)
    (hnone : cache.index[key]? = none) : recent.find? key = none := by
  obtain ⟨placed, hlayout, hentries⟩ := hfollows.layout
  rw [RecentEntries.find?, ← hentries, List.find?_eq_none]
  exact hlayout.ne_of_none hnone

/-- Where the entry of a key is, in the cache and in the list of recent entries. -/
structure Located (cache : LruCache ε κ ν) (recent : RecentEntries κ ν) (key : κ) (slot : Nat)
    (entry : κ × ν) (front back : List (Nat × κ × ν)) : Prop where
  layout : cache.Layout (front ++ (slot, entry) :: back)
  key_eq : (entry.1 == key) = true
  stored : cache.entryAt? slot = some entry
  found : recent.find? key = some entry
  erased : ∀ other, (entry.1 == other) = true →
    (recent.erase other).entries = (front ++ back).map Prod.snd

theorem Follows.located [EquivBEq κ] (hfollows : Follows settings listener cache recent)
    {slot : Nat} (hslot : cache.index[key]? = some slot) :
    ∃ entry front back, Located cache recent key slot entry front back := by
  obtain ⟨placed, hlayout, hentries⟩ := hfollows.layout
  obtain ⟨front, entry, back, rfl, hkey⟩ := hlayout.split_of_some hslot
  have hdistinct := hlayout.distinct
  rw [List.map_append, List.map_cons] at hdistinct hentries
  refine ⟨entry, front, back, hlayout, hkey, ?_, ?_, ?_⟩
  · exact (hlayout.stored_iff slot entry).mpr (by simp)
  · rw [RecentEntries.find?, ← hentries]
    exact (find?_and_filter_of_split hdistinct hkey).1
  · intro other hother
    rw [RecentEntries.erase, ← hentries, List.map_append]
    exact (find?_and_filter_of_split hdistinct hother).2

theorem Follows.contains_eq [EquivBEq κ] [LawfulHashable κ]
    (hfollows : Follows settings listener cache recent) (key : κ) :
    cache.contains key = (recent.find? key).isSome := by
  rw [LruCache.contains, Std.HashMap.contains_eq_isSome_getElem?]
  cases hslot : cache.index[key]? with
  | none =>
      rw [hfollows.index_eq_none hslot]
      rfl
  | some slot =>
      obtain ⟨entry, front, back, hlocated⟩ := hfollows.located hslot
      rw [hlocated.found]
      rfl

theorem Follows.peek?_eq [EquivBEq κ] (hfollows : Follows settings listener cache recent)
    (key : κ) : cache.peek? key = (recent.find? key).map Prod.snd := by
  rw [LruCache.peek?]
  cases hslot : cache.index[key]? with
  | none =>
      rw [hfollows.index_eq_none hslot]
      rfl
  | some slot =>
      obtain ⟨entry, front, back, hlocated⟩ := hfollows.located hslot
      rw [Option.bind_some, hlocated.stored, hlocated.found]

end Shown

/-! ## Changes -/

section Changes

variable {settings : CacheSettings} {listener : ε} {cache : LruCache ε κ ν}
variable {recent : RecentEntries κ ν}

/-- A change that lays out other entries, but keeps all else. -/
theorem Follows.relaid (hfollows : Follows settings listener cache recent)
    {changed : LruCache ε κ ν} {placed : List (Nat × κ × ν)} (hlayout : changed.Layout placed)
    (hsettings : changed.settings = cache.settings)
    (hstatistics : changed.statistics = cache.statistics)
    (hlistener : changed.listener = cache.listener) :
    Follows settings listener changed { recent with entries := placed.map Prod.snd } where
  layout := ⟨placed, hlayout, rfl⟩
  settings_eq := hsettings.trans hfollows.settings_eq
  statistics_eq := hstatistics.trans hfollows.statistics_eq
  listener_eq := hlistener.trans hfollows.listener_eq

theorem Follows.record (hfollows : Follows settings listener cache recent) (event : CacheEvent) :
    Follows settings listener (cache.record event) (recent.record settings event) := by
  obtain ⟨placed, hlayout, hentries⟩ := hfollows.layout
  have henabled : cache.settings.statisticsEnabled = settings.statisticsEnabled :=
    congrArg CacheSettings.statisticsEnabled hfollows.settings_eq
  rw [LruCache.record, RecentEntries.record, henabled]
  split
  · exact {
      layout := ⟨placed, { hlayout with }, hentries⟩
      settings_eq := hfollows.settings_eq
      statistics_eq := congrArg (·.record event) hfollows.statistics_eq
      listener_eq := hfollows.listener_eq }
  · exact hfollows

variable {key : κ} {slot : Nat} {entry : κ × ν} {front back : List (Nat × κ × ν)}

theorem Follows.touch [EquivBEq κ] (hfollows : Follows settings listener cache recent)
    (hlocated : Located cache recent key slot entry front back) :
    Follows settings listener (cache.touch slot) (recent.bringToFront entry) := by
  have hmoved := hfollows.relaid hlocated.layout.touch rfl rfl rfl
  rwa [List.map_cons, ← hlocated.erased entry.1 BEq.rfl] at hmoved

/-- A value is replaced after its entry was brought to the front. -/
theorem Follows.replace [EquivBEq κ] (hfollows : Follows settings listener cache recent)
    (hlocated : Located cache recent key slot entry front back) (value : ν) :
    Follows settings listener ((cache.touch slot).overwrite slot value)
      (recent.bringToFront (entry.1, value)) := by
  have hwritten := hfollows.relaid (hlocated.layout.touch.overwrite value) rfl rfl rfl
  rwa [List.map_cons, ← hlocated.erased entry.1 BEq.rfl] at hwritten

variable [EquivBEq κ] [LawfulHashable κ]

theorem Follows.drop (hfollows : Follows settings listener cache recent)
    (hlocated : Located cache recent key slot entry front back) :
    Follows settings listener
      (({ cache with index := cache.index.erase key } : LruCache ε κ ν).vacate slot)
      (recent.erase key) := by
  have hdropped := hfollows.relaid (hlocated.layout.drop hlocated.key_eq) rfl rfl rfl
  rwa [← hlocated.erased key hlocated.key_eq] at hdropped

omit [EquivBEq κ] [LawfulHashable κ] in
theorem evict_eq_of_append (hlayout : cache.Layout (front ++ [(slot, entry)])) :
    cache.evict = ⟨((cache.dismiss entry).vacate slot).record .eviction, (),
      [.entryEvicted slot cache.capacity]⟩ := by
  have htail : cache.recency.tail = some slot := by
    rw [hlayout.recency.tail_eq, List.map_append, List.map_singleton, List.getLast?_concat]
  have hstored : cache.entryAt? slot = some entry :=
    (hlayout.stored_iff slot entry).mpr (by simp)
  rw [evict, htail]
  dsimp only
  rw [hstored]

omit [EquivBEq κ] [LawfulHashable κ] in
theorem evict_of_append (hlayout : cache.Layout (front ++ [(slot, entry)])) :
    cache.evict.state = ((cache.dismiss entry).vacate slot).record .eviction :=
  congrArg Step.state (evict_eq_of_append hlayout)

/-- The entry used least recently goes with its key, whoever is told of it. -/
theorem Layout.dismiss (hlayout : cache.Layout (front ++ [(slot, entry)])) :
    ((cache.dismiss entry).vacate slot).Layout front := by
  have hdropped :=
    (hlayout.listen (EvictionListener.onEvict cache.listener entry.1 entry.2)).drop BEq.rfl
  rwa [List.append_nil] at hdropped

/-- The listener is told of the entry that the eviction drops. -/
theorem Follows.evict (hfollows : Follows settings listener cache recent)
    (hlayout : cache.Layout (front ++ [(slot, entry)]))
    (hentries : recent.entries = front.map Prod.snd ++ [entry]) :
    Follows settings listener cache.evict.state
      (RecentEntries.record settings
        { recent with
          entries := recent.entries.dropLast
          evicted := recent.evicted ++ recent.entries.getLast?.toList }
        .eviction) := by
  rw [evict_of_append hlayout, hentries, List.dropLast_concat, List.getLast?_concat]
  apply Follows.record
  exact {
    layout := ⟨front, hlayout.dismiss, rfl⟩
    settings_eq := hfollows.settings_eq
    statistics_eq := hfollows.statistics_eq
    listener_eq := by
      change EvictionListener.onEvict cache.listener entry.1 entry.2 = _
      rw [hfollows.listener_eq, notify, notify, Option.toList_some, List.foldl_append]
      rfl }

/-- The cache after it has made sure that there is room for another entry. -/
def makeRoom (cache : LruCache ε κ ν) : LruCache ε κ ν :=
  (if cache.capacity.toNat ≤ cache.length then cache.evict else .quiet cache ()).state

theorem Follows.makeRoom (hfollows : Follows settings listener cache recent)
    (hcapacity : 0 < settings.capacity.toNat) :
    Follows settings listener cache.makeRoom (recent.makeRoom settings) := by
  obtain ⟨placed, hlayout, hentries⟩ := hfollows.layout
  have hlength : cache.length = recent.entries.length := by
    rw [hlayout.length_eq, ← hentries, List.length_map]
  have hbound := hlayout.length_le
  rw [← hlayout.length_eq, hlength, LruCache.capacity, hfollows.settings_eq] at hbound
  rw [LruCache.makeRoom, RecentEntries.makeRoom, hlength, LruCache.capacity,
    hfollows.settings_eq]
  by_cases hfull : recent.entries.length = settings.capacity.toNat
  · rw [if_pos hfull, if_pos (Nat.le_of_eq hfull.symm)]
    rcases List.eq_nil_or_concat placed with rfl | ⟨front, ⟨slot, entry⟩, rfl⟩
    · rw [← hentries, List.map_nil, List.length_nil] at hfull
      exact absurd hfull (Nat.ne_of_lt hcapacity)
    · rw [List.concat_eq_append] at hlayout hentries
      rw [List.map_append, List.map_singleton] at hentries
      exact hfollows.evict hlayout hentries.symm
  · have hroom : ¬ settings.capacity.toNat ≤ recent.entries.length := fun hle =>
      hfull (Nat.le_antisymm hbound hle)
    rw [if_neg hfull, if_neg hroom]
    exact hfollows

/-- A new key stands in front once there is room for it. -/
theorem Follows.insertNew (hfollows : Follows settings listener cache recent)
    (hcapacity : 0 < settings.capacity.toNat) (habsent : recent.find? key = none) (value : ν) :
    Follows settings listener (cache.insertNew key value).state
      (recent.insert settings key value) := by
  have hready := hfollows.makeRoom hcapacity
  obtain ⟨placed, hlayout, hentries⟩ := hready.layout
  have hunknown : cache.makeRoom.index[key]? = none := by
    cases hslot : cache.makeRoom.index[key]? with
    | none => rfl
    | some slot =>
        obtain ⟨entry, front, back, hlocated⟩ := hready.located hslot
        have hnone := RecentEntries.find?_makeRoom settings habsent
        rw [hlocated.found] at hnone
        simp at hnone
  have hroom : placed.length < cache.makeRoom.capacity.toNat := by
    have hbound := hlayout.length_le
    rw [LruCache.capacity, hready.settings_eq] at hbound ⊢
    rw [← List.length_map Prod.snd, hentries] at hbound ⊢
    exact Nat.lt_of_le_of_ne hbound (RecentEntries.length_makeRoom_ne settings recent hcapacity)
  have hplaced := hready.relaid (hlayout.place hunknown hroom value)
    (settings_place _ key value) (statistics_place _ key value) (listener_place _ key value)
  rw [List.map_cons, hentries] at hplaced
  exact hplaced.record .insertion

theorem Follows.put (hfollows : Follows settings listener cache recent)
    (hcapacity : 0 < settings.capacity.toNat) (key : κ) (value : ν) :
    CacheAnswer.value (cache.put key value).result =
        (recent.perform settings (.put key value)).1 ∧
      Follows settings listener (cache.put key value).state
        (recent.perform settings (.put key value)).2 := by
  rw [LruCache.put, RecentEntries.perform]
  cases hslot : cache.index[key]? with
  | none =>
      have habsent := hfollows.index_eq_none hslot
      rw [habsent]
      exact ⟨rfl, hfollows.insertNew hcapacity habsent value⟩
  | some slot =>
      obtain ⟨entry, front, back, hlocated⟩ := hfollows.located hslot
      dsimp only
      rw [hlocated.found, hlocated.stored, overwrite_record]
      exact ⟨rfl, (hfollows.replace hlocated value).record .update⟩

theorem Follows.tryAdd (hfollows : Follows settings listener cache recent)
    (hcapacity : 0 < settings.capacity.toNat) (key : κ) (value : ν) :
    CacheAnswer.flag (cache.tryAdd key value).result =
        (recent.perform settings (.tryAdd key value)).1 ∧
      Follows settings listener (cache.tryAdd key value).state
        (recent.perform settings (.tryAdd key value)).2 := by
  rw [LruCache.tryAdd, RecentEntries.perform, hfollows.contains_eq]
  cases hfound : recent.find? key with
  | none => exact ⟨rfl, hfollows.insertNew hcapacity hfound value⟩
  | some entry => exact ⟨rfl, hfollows⟩

omit [LawfulHashable κ] in
theorem Follows.get (hfollows : Follows settings listener cache recent) (key : κ) :
    CacheAnswer.value (cache.get key).1 = (recent.perform settings (.get key)).1 ∧
      Follows settings listener (cache.get key).2 (recent.perform settings (.get key)).2 := by
  rw [LruCache.get, RecentEntries.perform]
  cases hslot : cache.index[key]? with
  | none =>
      rw [hfollows.index_eq_none hslot]
      exact ⟨rfl, hfollows.record .miss⟩
  | some slot =>
      obtain ⟨entry, front, back, hlocated⟩ := hfollows.located hslot
      rw [hlocated.found]
      dsimp only
      rw [hlocated.stored]
      exact ⟨rfl, (hfollows.touch hlocated).record .hit⟩

theorem Follows.remove (hfollows : Follows settings listener cache recent) (key : κ) :
    CacheAnswer.value (cache.remove key).1 = (recent.perform settings (.remove key)).1 ∧
      Follows settings listener (cache.remove key).2
        (recent.perform settings (.remove key)).2 := by
  rw [LruCache.remove, RecentEntries.perform]
  cases hslot : cache.index[key]? with
  | none =>
      have habsent := hfollows.index_eq_none hslot
      rw [habsent, RecentEntries.erase_of_none habsent]
      exact ⟨rfl, hfollows⟩
  | some slot =>
      obtain ⟨entry, front, back, hlocated⟩ := hfollows.located hslot
      rw [hlocated.found]
      dsimp only
      rw [hlocated.stored]
      exact ⟨rfl, hfollows.drop hlocated⟩

/-- A call has the answer that the recent entries give and changes both alike. -/
theorem Follows.perform (hfollows : Follows settings listener cache recent)
    (hcapacity : 0 < settings.capacity.toNat) (call : CacheCall κ ν) :
    (cache.perform call).1 = (recent.perform settings call).1 ∧
      Follows settings listener (cache.perform call).2 (recent.perform settings call).2 := by
  obtain ⟨placed, hlayout, hentries⟩ := hfollows.layout
  cases call with
  | put key value => exact hfollows.put hcapacity key value
  | tryAdd key value => exact hfollows.tryAdd hcapacity key value
  | get key => exact hfollows.get key
  | peek key => exact ⟨congrArg CacheAnswer.value (hfollows.peek?_eq key), hfollows⟩
  | contains key => exact ⟨congrArg CacheAnswer.flag (hfollows.contains_eq key), hfollows⟩
  | remove key => exact hfollows.remove key
  | clear =>
      have hcleared : cache.clear.Layout [] := layout_empty rfl rfl rfl rfl
      exact ⟨rfl, hfollows.relaid hcleared rfl rfl rfl⟩
  | oldest =>
      refine ⟨congrArg CacheAnswer.entry ?_, hfollows⟩
      rw [hlayout.oldest?_eq, hentries]
  | resetStatistics =>
      exact ⟨rfl, ⟨placed, { hlayout with }, hentries⟩, hfollows.settings_eq, rfl,
        hfollows.listener_eq⟩
  | iterate count =>
      refine ⟨congrArg CacheAnswer.visits ?_, hfollows⟩
      rw [hlayout.calls_walk, hentries]

/-! ## Runs -/

/-- All that can be seen of a cache is as the recent entries say, which have different
keys and are not more than the settings allow. -/
structure Agrees (settings : CacheSettings) (listener : ε) (cache : LruCache ε κ ν)
    (recent : RecentEntries κ ν) : Prop where
  distinct : recent.entries.Pairwise fun newer older => ¬ (newer.1 == older.1) = true
  length_le : recent.entries.length ≤ settings.capacity.toNat
  toList : cache.toList = recent.entries
  walk : ∀ count, Cursor.calls count cache.walk = Cursor.visits recent.entries count
  length : cache.length = recent.entries.length
  oldest? : cache.oldest? = recent.entries.getLast?
  peek? : ∀ key, cache.peek? key = (recent.find? key).map Prod.snd
  contains : ∀ key, cache.contains key = (recent.find? key).isSome
  statistics : cache.statistics = recent.statistics
  listener : cache.listener = notify listener recent.evicted

theorem Follows.agrees (hfollows : Follows settings listener cache recent) :
    Agrees settings listener cache recent := by
  obtain ⟨placed, hlayout, hentries⟩ := hfollows.layout
  exact {
    distinct := hentries ▸ hlayout.distinct
    length_le := by
      rw [← hentries, List.length_map, ← hfollows.settings_eq]
      exact hlayout.length_le
    toList := hlayout.toList_eq.trans hentries
    walk := fun count => hentries ▸ hlayout.calls_walk count
    length := by rw [hlayout.length_eq, ← hentries, List.length_map]
    oldest? := hentries ▸ hlayout.oldest?_eq
    peek? := hfollows.peek?_eq
    contains := hfollows.contains_eq
    statistics := hfollows.statistics_eq
    listener := hfollows.listener_eq }

theorem Follows.run (hfollows : Follows settings listener cache recent)
    (hcapacity : 0 < settings.capacity.toNat) (calls : List (CacheCall κ ν)) :
    (Calls.run LruCache.perform cache calls).1 =
        (Calls.run (RecentEntries.perform settings) recent calls).1 ∧
      Follows settings listener (Calls.run LruCache.perform cache calls).2
        (Calls.run (RecentEntries.perform settings) recent calls).2 :=
  Calls.run_agrees_of_related (fun _ _ call hbefore => hbefore.perform hcapacity call) calls
    hfollows

omit [EvictionListener ε κ ν] [EquivBEq κ] [LawfulHashable κ] in
/-- A new cache is empty, and its settings allow an entry. -/
theorem withListener_eq_ok_iff : withListener settings listener = .ok cache ↔
    0 < settings.capacity.toNat ∧ cache = ⟨settings, ∅, #[], .empty, [], .zero, listener⟩ := by
  have hzero : settings.capacity = 0 ↔ ¬ 0 < settings.capacity.toNat := by
    rw [← UInt64.toNat_inj, UInt64.toNat_zero, Nat.pos_iff_ne_zero, not_not]
  rw [withListener, CacheSettings.validate]
  by_cases hpositive : 0 < settings.capacity.toNat
  · rw [if_neg fun hcapacity => hzero.mp hcapacity hpositive]
    constructor
    · exact fun hcache => ⟨hpositive, (Except.ok.inj hcache).symm⟩
    · exact fun hcache => congrArg Except.ok hcache.2.symm
  · rw [if_pos (hzero.mpr hpositive)]
    constructor
    · exact fun hcache => by cases hcache
    · exact fun hcache => absurd hcache.1 hpositive

omit [EquivBEq κ] [LawfulHashable κ] in
theorem follows_of_withListener (hcache : withListener settings listener = .ok cache) :
    Follows settings listener cache .empty := by
  obtain ⟨-, hfresh⟩ := withListener_eq_ok_iff.mp hcache
  subst hfresh
  exact ⟨⟨[], layout_empty rfl rfl rfl rfl, rfl⟩, rfl, rfl, rfl⟩

/-- A new cache answers every run of calls as the list of recent entries does, and agrees
with it afterwards. -/
theorem withListener_run_agrees (settings : CacheSettings) (listener : ε)
    (hcapacity : 1 ≤ settings.capacity) :
    ∃ start : LruCache ε κ ν, withListener settings listener = .ok start ∧
      ∀ calls : List (CacheCall κ ν),
        (Calls.run perform start calls).1 =
            (Calls.run (RecentEntries.perform settings) .empty calls).1 ∧
          Agrees settings listener (Calls.run perform start calls).2
            (Calls.run (RecentEntries.perform settings) .empty calls).2 := by
  have hpositive : 0 < settings.capacity.toNat := UInt64.le_iff_toNat_le.mp hcapacity
  have hvalid : settings.validate = .ok () := by
    rw [CacheSettings.validate, if_neg]
    intro hzero
    rw [hzero] at hpositive
    exact absurd hpositive (by decide)
  refine ⟨⟨settings, ∅, #[], .empty, [], .zero, listener⟩, ?_, ?_⟩
  · rw [withListener, hvalid]
    rfl
  · intro calls
    have hstart : Follows settings listener
        (⟨settings, ∅, #[], .empty, [], .zero, listener⟩ : LruCache ε κ ν) .empty :=
      ⟨⟨[], layout_empty rfl rfl rfl rfl, rfl⟩, rfl, rfl, rfl⟩
    have hstep : ∀ (cache : LruCache ε κ ν) (recent : RecentEntries κ ν)
        (call : CacheCall κ ν), True → Follows settings listener cache recent →
          (cache.perform call).1 = (recent.perform settings call).1 ∧
            Follows settings listener (cache.perform call).2
              (recent.perform settings call).2 :=
      fun cache recent call _ hfollows => hfollows.perform hpositive call
    obtain ⟨hanswers, hfollows⟩ := Calls.run_agrees hstep calls _ _ hstart
      (Calls.throughout_of_forall (fun _ _ => trivial) calls _)
    exact ⟨hanswers, hfollows.agrees⟩

/-- Calls of a full cache in which a slot is reused after an eviction and after a removal. -/
def reusingCalls : List (CacheCall Nat Int64) :=
  [.put 1 10, .put 2 20, .get 1, .put 3 30, .remove 1, .tryAdd 4 40, .get 3, .put 5 50]

theorem withListener_run_agrees_reusingCalls :
    1 ≤ CacheSettings.capacity ⟨2, true⟩ ∧
      ∃ start : LruCache (EvictionRecord Nat Int64) Nat Int64,
        withListener ⟨2, true⟩ .empty = .ok start ∧
          (Calls.run perform start reusingCalls).2.toList = [(5, 50), (3, 30)] ∧
            (Calls.run perform start reusingCalls).2.listener.toList = [(2, 20), (4, 40)] := by
  have hcapacity : 1 ≤ CacheSettings.capacity ⟨2, true⟩ := by decide
  obtain ⟨start, hstart, hruns⟩ := @withListener_run_agrees (EvictionRecord Nat Int64) Nat Int64
    _ _ _ _ _ ⟨2, true⟩ .empty hcapacity
  obtain ⟨-, hagrees⟩ := hruns reusingCalls
  refine ⟨hcapacity, start, hstart, hagrees.toList, ?_⟩
  rw [hagrees.listener]
  rfl

end Changes

end LruCache

end Collections
