import Mathlib
import Collections.Proofs.Lru.CacheRuns

/-!
# Inclusion of a smaller cache in a larger one

A larger cache that is given the same calls keeps all that a smaller one keeps, in the
same order.  The two runs drop different entries, and a look-up that fails on the smaller
cache may reorder the larger one.  What carries the inclusion through a run is that the
larger cache always has room for as many further entries as the smaller one, so that it
only drops an entry when the smaller one does.
-/

namespace Collections

universe u v w x

/-! ## Sublists up to a relation -/

section Sublists

variable {α : Type u} {β : Type v} {related : α → β → Prop} {items : List α} {others : List β}

theorem exists_mem_of_sublistForall₂ (hsublist : List.SublistForall₂ related items others)
    {item : α} (hitem : item ∈ items) : ∃ other ∈ others, related item other := by
  induction hsublist with
  | nil => exact absurd hitem List.not_mem_nil
  | cons hrelated _ ih =>
      rcases List.mem_cons.mp hitem with hhead | htail
      · exact ⟨_, List.mem_cons_self, hhead ▸ hrelated⟩
      · obtain ⟨other, hother, hfound⟩ := ih htail
        exact ⟨other, List.mem_cons_of_mem _ hother, hfound⟩
  | cons_right _ ih =>
      obtain ⟨other, hother, hfound⟩ := ih hitem
      exact ⟨other, List.mem_cons_of_mem _ hother, hfound⟩

theorem sublistForall₂_of_sublist {fewer : List α} (hfewer : fewer.Sublist items)
    (hsublist : List.SublistForall₂ related items others) :
    List.SublistForall₂ related fewer others := by
  induction hsublist generalizing fewer with
  | nil =>
      rw [List.sublist_nil.mp hfewer]
      exact .nil
  | cons hrelated hrest ih =>
      cases hfewer with
      | cons _ hskipped => exact .cons_right (ih hskipped)
      | cons_cons _ hkept => exact .cons hrelated (ih hkept)
  | cons_right _ ih => exact .cons_right (ih hfewer)

theorem sublistForall₂_dropLast (hsublist : List.SublistForall₂ related items others) :
    List.SublistForall₂ related items.dropLast others.dropLast := by
  induction hsublist with
  | nil => exact .nil
  | @cons first second rest more hrelated hrest ih =>
      cases hrest with
      | nil => exact .nil
      | cons _ _ => exact .cons hrelated ih
      | cons_right _ =>
          cases rest with
          | nil => exact .nil
          | cons _ _ => exact .cons hrelated ih
  | @cons_right _ rest more hrest ih =>
      cases more with
      | nil =>
          cases hrest
          exact .nil
      | cons _ _ => exact .cons_right ih

theorem sublistForall₂_filter {keep : α → Bool} {retain : β → Bool}
    (hkeep : ∀ item other, related item other → keep item = retain other)
    (hsublist : List.SublistForall₂ related items others) :
    List.SublistForall₂ related (items.filter keep) (others.filter retain) := by
  induction hsublist with
  | nil => exact .nil
  | @cons item other _ _ hrelated _ ih =>
      rw [List.filter_cons, List.filter_cons, hkeep item other hrelated]
      split
      · exact .cons hrelated ih
      · exact ih
  | @cons_right other _ _ _ ih =>
      rw [List.filter_cons]
      split
      · exact .cons_right ih
      · exact ih

end Sublists

/-! ## Included entries -/

/-- Two entries with equal keys and the same value. -/
def SameEntry {κ : Type v} {ν : Type w} [BEq κ] (entry other : κ × ν) : Prop :=
  (entry.1 == other.1) = true ∧ entry.2 = other.2

/-- A value that the first cache answers is the answer of the second one too. -/
def FoundToo {κ : Type v} {ν : Type w} (answer other : CacheAnswer κ ν) : Prop :=
  ∀ value, answer = .value (some value) → other = .value (some value)

namespace RecentEntries

variable {κ : Type v} {ν : Type w} [BEq κ]

/-- Different keys, and not more entries than the settings allow, which allow at least one. -/
structure Proper (settings : CacheSettings) (recent : RecentEntries κ ν) : Prop where
  capacity_pos : 0 < settings.capacity.toNat
  distinct : DistinctKeys recent.entries
  length_le : recent.entries.length ≤ settings.capacity.toNat

/-- The entries of a smaller cache are among those of a larger one. -/
structure Included (small large : CacheSettings) (fewer more : RecentEntries κ ν) : Prop where
  entries : List.SublistForall₂ SameEntry fewer.entries more.entries
  /-- The larger cache has room for as many further entries as the smaller one. -/
  room : more.entries.length + small.capacity.toNat ≤
    fewer.entries.length + large.capacity.toNat
  hits : large.statisticsEnabled = true → fewer.statistics.hits ≤ more.statistics.hits

/-! ### What changes do to entries and hits -/

section Parts

variable (settings : CacheSettings) (recent : RecentEntries κ ν)

omit [BEq κ] in
theorem hits_record (event : CacheEvent) :
    (recent.record settings event).statistics.hits = recent.statistics.hits +
      if settings.statisticsEnabled = true ∧ event = .hit then 1 else 0 := by
  rw [record]
  cases hstatistics : settings.statisticsEnabled with
  | false => simp
  | true => cases event <;> simp [CacheStatistics.record]

omit [BEq κ] in
theorem length_makeRoom :
    (recent.makeRoom settings).entries.length =
      if recent.entries.length = settings.capacity.toNat then recent.entries.length - 1
      else recent.entries.length := by
  rw [entries_makeRoom]
  split
  · exact List.length_dropLast
  · rfl

omit [BEq κ] in
theorem hits_makeRoom :
    (recent.makeRoom settings).statistics.hits = recent.statistics.hits := by
  rw [makeRoom]
  split
  · rw [hits_record]
    simp
  · rfl

end Parts

section Erased

variable {recent : RecentEntries κ ν} {key : κ} {entry : κ × ν}

variable [EquivBEq κ]

theorem Proper.length_erase {settings : CacheSettings} (hproper : recent.Proper settings)
    (hfound : recent.find? key = some entry) :
    (recent.erase key).entries.length + 1 = recent.entries.length := by
  obtain ⟨hmem, hkey⟩ := hproper.distinct.find?_eq_some_iff.mp hfound
  exact hproper.distinct.length_filter hmem hkey

end Erased

/-! ### What keeps the inclusion -/

section Inclusion

variable {small large : CacheSettings} {fewer more : RecentEntries κ ν} {key : κ}

theorem Included.capacity_le (hincluded : Included small large fewer more) :
    small.capacity.toNat ≤ large.capacity.toNat := by
  obtain ⟨matched, hmatched, hsublist⟩ := List.sublistForall₂_iff.mp hincluded.entries
  have hlength : fewer.entries.length ≤ more.entries.length :=
    hmatched.length_eq ▸ hsublist.length_le
  have hroom := hincluded.room
  omega

variable [EquivBEq κ]

theorem Included.find? (hincluded : Included small large fewer more) (hmore : more.Proper large)
    {entry : κ × ν} (hfound : fewer.find? key = some entry) :
    ∃ other, more.find? key = some other ∧ SameEntry entry other := by
  obtain ⟨other, hother, hsame⟩ :=
    exists_mem_of_sublistForall₂ hincluded.entries (List.mem_of_find?_eq_some hfound)
  have hkey := equal_of_find? hfound
  exact ⟨other, hmore.distinct.find?_eq_some_iff.mpr
    ⟨hother, BEq.trans (BEq.symm hsame.1) hkey⟩, hsame⟩

omit [EquivBEq κ] in
theorem Included.record (hincluded : Included small large fewer more) {event other : CacheEvent}
    (hevents : event = .hit → other = .hit) :
    Included small large (fewer.record small event) (more.record large other) where
  entries := by
    rw [entries_record, entries_record]
    exact hincluded.entries
  room := by
    rw [entries_record, entries_record]
    exact hincluded.room
  hits := by
    intro henabled
    have hhits := hincluded.hits henabled
    rw [hits_record, hits_record]
    by_cases hhit : event = .hit
    · rw [if_pos (show large.statisticsEnabled = true ∧ other = .hit from
        ⟨henabled, hevents hhit⟩)]
      split <;> omega
    · rw [if_neg fun hcounted => hhit hcounted.2]
      exact Nat.le_add_right_of_le hhits

omit [EquivBEq κ] in
/-- The same entry is put in front of both. -/
theorem Included.push (hincluded : Included small large fewer more) {entry other : κ × ν}
    (hsame : SameEntry entry other) :
    Included small large { fewer with entries := entry :: fewer.entries }
      { more with entries := other :: more.entries } where
  entries := .cons hsame hincluded.entries
  room := by
    have hroom := hincluded.room
    rw [List.length_cons, List.length_cons]
    omega
  hits := hincluded.hits

theorem Included.erase (hincluded : Included small large fewer more)
    (hfewer : fewer.Proper small) (hmore : more.Proper large) (key : κ) :
    Included small large (fewer.erase key) (more.erase key) where
  entries := by
    apply sublistForall₂_filter _ hincluded.entries
    intro entry other hsame
    rw [BEq.congr_left hsame.1]
  room := by
    have hroom := hincluded.room
    cases hfound : fewer.find? key with
    | none =>
        have hshorter : (more.erase key).entries.length ≤ more.entries.length :=
          List.length_filter_le _ _
        rw [erase_of_none hfound]
        omega
    | some entry =>
        obtain ⟨other, hother, -⟩ := hincluded.find? hmore hfound
        have hlength := hfewer.length_erase hfound
        have hothers := hmore.length_erase hother
        omega
  hits := hincluded.hits

/-- An entry of both is brought to the front. -/
theorem Included.bringToFront (hincluded : Included small large fewer more)
    (hfewer : fewer.Proper small) (hmore : more.Proper large) {entry other : κ × ν}
    (hsame : SameEntry entry other) :
    Included small large (fewer.bringToFront entry) (more.bringToFront other) := by
  rw [RecentEntries.bringToFront, RecentEntries.bringToFront, ← erase_congr more hsame.1]
  exact (hincluded.erase hfewer hmore entry.1).push hsame

/-- The larger cache brings an entry to the front that the smaller one does not have. -/
theorem Included.bringToFront_of_none (hincluded : Included small large fewer more)
    (hfewer : fewer.Proper small) (hmore : more.Proper large) {entry other : κ × ν}
    (habsent : fewer.find? key = none) (hfound : more.find? key = some other)
    (hkey : (key == entry.1) = true) :
    Included small large fewer (more.bringToFront entry) := by
  have hrest := hincluded.erase hfewer hmore key
  have hlength := hmore.length_erase hfound
  rw [erase_of_none habsent] at hrest
  rw [RecentEntries.bringToFront, ← erase_congr more hkey]
  exact {
    entries := .cons_right hrest.entries
    room := by
      rw [List.length_cons, hlength]
      exact hincluded.room
    hits := hincluded.hits }

omit [EquivBEq κ] in
/-- The larger cache drops an entry only when the smaller one does. -/
theorem Included.makeRoom (hincluded : Included small large fewer more)
    (hfewer : fewer.Proper small) (hmore : more.Proper large) :
    Included small large (fewer.makeRoom small) (more.makeRoom large) := by
  have hroom := hincluded.room
  obtain ⟨hsmall, -, hfewer⟩ := hfewer
  obtain ⟨hlarge, -, hmore⟩ := hmore
  refine ⟨?_, ?_, ?_⟩
  · rw [entries_makeRoom, entries_makeRoom]
    by_cases hfull : more.entries.length = large.capacity.toNat
    -- No room in the larger cache means no room in the smaller one.
    · rw [if_pos hfull, if_pos (show fewer.entries.length = small.capacity.toNat by omega)]
      exact sublistForall₂_dropLast hincluded.entries
    · rw [if_neg hfull]
      split
      · exact sublistForall₂_of_sublist (List.dropLast_sublist _) hincluded.entries
      · exact hincluded.entries
  · rw [length_makeRoom, length_makeRoom]
    split <;> split <;> omega
  · rw [hits_makeRoom, hits_makeRoom]
    exact hincluded.hits

/-- The smaller cache makes room for a key that only the larger one has. -/
theorem Included.makeRoom_erase (hincluded : Included small large fewer more)
    (hfewer : fewer.Proper small) (hmore : more.Proper large) {other : κ × ν}
    (habsent : fewer.find? key = none) (hfound : more.find? key = some other) :
    Included small large (fewer.makeRoom small) (more.erase key) where
  entries := by
    have hrest := (hincluded.erase hfewer hmore key).entries
    rw [erase_of_none habsent] at hrest
    rw [entries_makeRoom]
    split
    · exact sublistForall₂_of_sublist (List.dropLast_sublist _) hrest
    · exact hrest
  room := by
    have hroom := hincluded.room
    have hlength := hmore.length_erase hfound
    have hkept : fewer.entries.length ≤ (fewer.makeRoom small).entries.length + 1 := by
      rw [length_makeRoom]
      split <;> omega
    omega
  hits := by
    rw [hits_makeRoom]
    exact hincluded.hits

/-! ### What one call keeps -/

theorem Included.get (hincluded : Included small large fewer more)
    (hfewer : fewer.Proper small) (hmore : more.Proper large) (key : κ) :
    FoundToo (fewer.perform small (.get key)).1 (more.perform large (.get key)).1 ∧
      Included small large (fewer.perform small (.get key)).2
        (more.perform large (.get key)).2 := by
  rw [RecentEntries.perform, RecentEntries.perform]
  cases hmine : fewer.find? key with
  | some entry =>
      obtain ⟨other, hother, hsame⟩ := hincluded.find? hmore hmine
      rw [hother]
      dsimp only
      rw [hsame.2]
      exact ⟨fun _ hvalue => hvalue, (hincluded.bringToFront hfewer hmore hsame).record id⟩
  | none =>
      refine ⟨fun value hvalue => by simp at hvalue, ?_⟩
      cases hother : more.find? key with
      | none => exact hincluded.record id
      | some other =>
          have hkey := BEq.symm (equal_of_find? hother)
          exact (hincluded.bringToFront_of_none hfewer hmore hmine hother hkey).record
            fun _ => rfl

theorem Included.put (hincluded : Included small large fewer more)
    (hfewer : fewer.Proper small) (hmore : more.Proper large) (key : κ) (value : ν) :
    FoundToo (fewer.perform small (.put key value)).1 (more.perform large (.put key value)).1 ∧
      Included small large (fewer.perform small (.put key value)).2
        (more.perform large (.put key value)).2 := by
  rw [RecentEntries.perform, RecentEntries.perform]
  cases hmine : fewer.find? key with
  | some entry =>
      obtain ⟨other, hother, hsame⟩ := hincluded.find? hmore hmine
      have hwritten : SameEntry (entry.1, value) (other.1, value) := ⟨hsame.1, rfl⟩
      rw [hother]
      dsimp only
      rw [hsame.2]
      exact ⟨fun _ hvalue => hvalue, (hincluded.bringToFront hfewer hmore hwritten).record id⟩
  | none =>
      refine ⟨fun value hvalue => by simp at hvalue, ?_⟩
      cases hother : more.find? key with
      | none =>
          have hnew : SameEntry (key, value) (key, value) := ⟨BEq.rfl, rfl⟩
          exact ((hincluded.makeRoom hfewer hmore).push hnew).record id
      | some other =>
          have hkey := equal_of_find? hother
          have hwritten : SameEntry (key, value) (other.1, value) := ⟨BEq.symm hkey, rfl⟩
          have hroom := hincluded.makeRoom_erase hfewer hmore hmine hother
          rw [← erase_congr more hkey] at hroom
          exact (hroom.push hwritten).record fun hevent => by cases hevent

theorem Included.foundToo (hincluded : Included small large fewer more)
    (hmore : more.Proper large) (key : κ) :
    FoundToo (.value ((fewer.find? key).map Prod.snd) : CacheAnswer κ ν)
      (.value ((more.find? key).map Prod.snd)) := by
  intro value hvalue
  cases hmine : fewer.find? key with
  | none =>
      rw [hmine] at hvalue
      simp at hvalue
  | some entry =>
      obtain ⟨other, hother, hsame⟩ := hincluded.find? hmore hmine
      rw [hmine, Option.map_some, hsame.2] at hvalue
      rw [hother, Option.map_some, hvalue]

/-- A call finds on the larger list what it finds on the smaller one, and keeps it included,
unless it adds a key only if that is absent. -/
theorem Included.perform (hincluded : Included small large fewer more)
    (hfewer : fewer.Proper small) (hmore : more.Proper large) {call : CacheCall κ ν}
    (hcall : ∀ key value, call ≠ .tryAdd key value) :
    FoundToo (fewer.perform small call).1 (more.perform large call).1 ∧
      Included small large (fewer.perform small call).2 (more.perform large call).2 := by
  have hnothing : ∀ (answer other : CacheAnswer κ ν), (∀ found, answer ≠ .value found) →
      FoundToo answer other :=
    fun answer other hanswer value hvalue => absurd hvalue (hanswer _)
  cases call with
  | put key value => exact hincluded.put hfewer hmore key value
  | tryAdd key value => exact absurd rfl (hcall key value)
  | get key => exact hincluded.get hfewer hmore key
  | peek key => exact ⟨hincluded.foundToo hmore key, hincluded⟩
  | contains key => exact ⟨hnothing _ _ nofun, hincluded⟩
  | remove key => exact ⟨hincluded.foundToo hmore key, hincluded.erase hfewer hmore key⟩
  | clear =>
      refine ⟨hnothing _ _ nofun, .nil, ?_, hincluded.hits⟩
      exact Nat.add_le_add_left hincluded.capacity_le 0
  | oldest => exact ⟨hnothing _ _ nofun, hincluded⟩
  | resetStatistics =>
      exact ⟨hnothing _ _ nofun, hincluded.entries, hincluded.room, fun _ => Nat.le_refl _⟩
  | iterate count => exact ⟨hnothing _ _ nofun, hincluded⟩

end Inclusion

end RecentEntries

/-! ## Runs of two caches -/

namespace LruCache

variable {ε : Type u} {δ : Type x} {κ : Type v} {ν : Type w} [BEq κ] [Hashable κ]
variable [EvictionListener ε κ ν] [EvictionListener δ κ ν]
variable [EquivBEq κ] [LawfulHashable κ]

theorem Follows.proper {settings : CacheSettings} {listener : ε} {cache : LruCache ε κ ν}
    {recent : RecentEntries κ ν} (hfollows : Follows settings listener cache recent)
    (hcapacity : 0 < settings.capacity.toNat) : recent.Proper settings :=
  ⟨hcapacity, hfollows.agrees.distinct, hfollows.agrees.length_le⟩

/-- Two caches stand for entries of which those of the first are included in those of the
second. -/
def Includes (small large : CacheSettings) (listener : ε) (other : δ)
    (smaller : LruCache ε κ ν) (larger : LruCache δ κ ν) : Prop :=
  ∃ fewer more, Follows small listener smaller fewer ∧ Follows large other larger more ∧
    fewer.Included small large more

theorem Includes.perform {small large : CacheSettings} {listener : ε} {other : δ}
    {smaller : LruCache ε κ ν} {larger : LruCache δ κ ν}
    (hincludes : Includes small large listener other smaller larger)
    (hsmall : 0 < small.capacity.toNat) (hlarge : 0 < large.capacity.toNat)
    {call : CacheCall κ ν} (hcall : ∀ key value, call ≠ .tryAdd key value) :
    FoundToo (smaller.perform call).1 (larger.perform call).1 ∧
      Includes small large listener other (smaller.perform call).2 (larger.perform call).2 := by
  obtain ⟨fewer, more, hfewer, hmore, hincluded⟩ := hincludes
  obtain ⟨hanswer, hfewerNext⟩ := hfewer.perform hsmall call
  obtain ⟨hother, hmoreNext⟩ := hmore.perform hlarge call
  obtain ⟨hfound, hincludedNext⟩ :=
    hincluded.perform (hfewer.proper hsmall) (hmore.proper hlarge) hcall
  rw [hanswer, hother]
  exact ⟨hfound, _, _, hfewerNext, hmoreNext, hincludedNext⟩

/-- A new cache and a new larger one that are given the same calls: after each run the entries
of the smaller one are a subsequence of those of the larger one, what the smaller one finds
the larger one finds too, and the larger one has counted at least as many hits. -/
theorem withListener_run_included (small large : CacheSettings) (listener : ε) (other : δ)
    (hcapacity : 1 ≤ small.capacity) (hle : small.capacity ≤ large.capacity) :
    ∃ (smaller : LruCache ε κ ν) (larger : LruCache δ κ ν),
      withListener small listener = .ok smaller ∧ withListener large other = .ok larger ∧
        ∀ calls : List (CacheCall κ ν),
          (∀ call ∈ calls, ∀ key value, call ≠ .tryAdd key value) →
            List.SublistForall₂ SameEntry (Calls.run perform smaller calls).2.toList
                (Calls.run perform larger calls).2.toList ∧
              List.Forall₂ FoundToo (Calls.run perform smaller calls).1
                (Calls.run perform larger calls).1 ∧
              (large.statisticsEnabled = true →
                (Calls.run perform smaller calls).2.statistics.hits ≤
                  (Calls.run perform larger calls).2.statistics.hits) := by
  have hsmall : 0 < small.capacity.toNat := UInt64.le_iff_toNat_le.mp hcapacity
  have hcapacities : small.capacity.toNat ≤ large.capacity.toNat :=
    UInt64.le_iff_toNat_le.mp hle
  have hlarge : 0 < large.capacity.toNat := Nat.lt_of_lt_of_le hsmall hcapacities
  have hsmaller : withListener small listener =
      .ok (⟨small, ∅, #[], .empty, [], .zero, listener⟩ : LruCache ε κ ν) :=
    withListener_eq_ok_iff.mpr ⟨hsmall, rfl⟩
  have hlarger : withListener large other =
      .ok (⟨large, ∅, #[], .empty, [], .zero, other⟩ : LruCache δ κ ν) :=
    withListener_eq_ok_iff.mpr ⟨hlarge, rfl⟩
  refine ⟨_, _, hsmaller, hlarger, ?_⟩
  intro calls hcalls
  have hstart : Includes small large listener other _ _ :=
    ⟨.empty, .empty, follows_of_withListener hsmaller, follows_of_withListener hlarger,
      .nil, Nat.add_le_add_left hcapacities 0, fun _ => Nat.le_refl 0⟩
  have hstep : ∀ (smaller : LruCache ε κ ν) (larger : LruCache δ κ ν) (call : CacheCall κ ν),
      (∀ key value, call ≠ .tryAdd key value) →
        Includes small large listener other smaller larger →
          FoundToo (smaller.perform call).1 (larger.perform call).1 ∧
            Includes small large listener other (smaller.perform call).2
              (larger.perform call).2 :=
    fun smaller larger call hcall hincludes => hincludes.perform hsmall hlarge hcall
  obtain ⟨hanswers, fewer, more, hfewer, hmore, hincluded⟩ :=
    Calls.run_related hstep calls _ _ hstart
      (Calls.throughout_of_forall_mem calls (fun _ => hcalls) _)
  refine ⟨?_, hanswers, ?_⟩
  · rw [hfewer.agrees.toList, hmore.agrees.toList]
    exact hincluded.entries
  · rw [hfewer.statistics_eq, hmore.statistics_eq]
    exact hincluded.hits

/-- Calls in which both caches drop an entry and lose another one, and in which the larger one
finds keys that the smaller one misses. -/
def divergingCalls : List (CacheCall Nat Int64) :=
  [.put 1 10, .put 2 20, .put 3 30, .get 1, .put 4 40, .get 3, .remove 3, .put 1 11, .put 5 50,
    .get 4]

theorem withListener_run_included_divergingCalls :
    1 ≤ CacheSettings.capacity ⟨2, true⟩ ∧
      CacheSettings.capacity ⟨2, true⟩ ≤ CacheSettings.capacity ⟨3, true⟩ ∧
        (∀ call ∈ divergingCalls, ∀ key value, call ≠ .tryAdd key value) ∧
          ∃ (smaller : LruCache NoListener Nat Int64)
            (larger : LruCache (EvictionRecord Nat Int64) Nat Int64),
            withListener ⟨2, true⟩ .silent = .ok smaller ∧
              withListener ⟨3, true⟩ .empty = .ok larger ∧
                (Calls.run perform smaller divergingCalls).2.toList = [(5, 50), (1, 11)] ∧
                (Calls.run perform larger divergingCalls).2.toList =
                  [(4, 40), (5, 50), (1, 11)] ∧
                List.SublistForall₂ SameEntry (Calls.run perform smaller divergingCalls).2.toList
                  (Calls.run perform larger divergingCalls).2.toList ∧
                (Calls.run perform smaller divergingCalls).2.statistics.hits ≤
                  (Calls.run perform larger divergingCalls).2.statistics.hits := by
  have hcapacity : 1 ≤ CacheSettings.capacity ⟨2, true⟩ := by decide
  have hle : CacheSettings.capacity ⟨2, true⟩ ≤ CacheSettings.capacity ⟨3, true⟩ := by decide
  have hcalls : ∀ call ∈ divergingCalls, ∀ key value, call ≠ .tryAdd key value := by
    simp [divergingCalls]
  obtain ⟨smaller, larger, hsmaller, hlarger, hruns⟩ :=
    @withListener_run_included NoListener (EvictionRecord Nat Int64) Nat Int64 _ _ _ _ _ _
      ⟨2, true⟩ ⟨3, true⟩ .silent .empty hcapacity hle
  obtain ⟨hentries, -, hhits⟩ := hruns divergingCalls hcalls
  obtain ⟨-, rfl⟩ := withListener_eq_ok_iff.mp hsmaller
  obtain ⟨-, rfl⟩ := withListener_eq_ok_iff.mp hlarger
  exact ⟨hcapacity, hle, hcalls, _, _, hsmaller, hlarger, by cbv, by cbv, hentries, hhits rfl⟩

end LruCache

end Collections
