import Mathlib
import Collections.Proofs.Lru.Inclusion
import Collections.Proofs.Trace

/-!
# Accounts of a cache

The statistics of a cache are what can be counted from outside: the calls with their answers, the
entries that its listener was told of, and the entries that are left.  Every entry that came in
is still there, was evicted, was removed or was there at a clearing.  Whether a cache counts at
all shows nowhere else.
-/

namespace Collections

universe u v w x

/-! ## Turns -/

/-- A call with the number of entries before it and its answer. -/
abbrev CacheTurn (κ : Type v) (ν : Type w) :=
  Nat × CacheCall κ ν × CacheAnswer κ ν

namespace CacheTurn

variable {κ : Type v} {ν : Type w}

def isLookup : CacheTurn κ ν → Bool
  | (_, .get _, _) => true
  | _ => false

def isHit : CacheTurn κ ν → Bool
  | (_, .get _, .value (some _)) => true
  | _ => false

/-- A put that returned the value before. -/
def isUpdate : CacheTurn κ ν → Bool
  | (_, .put _ _, .value (some _)) => true
  | _ => false

/-- A put that returned nothing. -/
def isFirstPut : CacheTurn κ ν → Bool
  | (_, .put _ _, .value none) => true
  | _ => false

def isAddition : CacheTurn κ ν → Bool
  | (_, .tryAdd _ _, .flag true) => true
  | _ => false

/-- A removal that found its key. -/
def isRemoval : CacheTurn κ ν → Bool
  | (_, .remove _, .value (some _)) => true
  | _ => false

/-- The number of entries that a clearing took out. -/
def cleared : CacheTurn κ ν → Nat
  | (before, .clear, _) => before
  | _ => 0

end CacheTurn

/-! ## Accounts -/

section Accounts

variable {κ : Type v} {ν : Type w}

/-- The statistics agree with the turns that were taken, the entries that are left and the entries
that a listener was told of. -/
structure Accounts (statistics : CacheStatistics) (left told : Nat) (turns : List (CacheTurn κ ν)) :
    Prop where
  lookups : statistics.hits + statistics.misses = turns.countP CacheTurn.isLookup
  hits : statistics.hits = turns.countP CacheTurn.isHit
  updates : statistics.updates = turns.countP CacheTurn.isUpdate
  insertions : statistics.insertions =
    turns.countP CacheTurn.isFirstPut + turns.countP CacheTurn.isAddition
  evictions : statistics.evictions = told
  /-- Where the entries that came in are. -/
  balance : statistics.insertions = left + statistics.evictions +
    turns.countP CacheTurn.isRemoval + (turns.map CacheTurn.cleared).sum

namespace Accounts

variable {statistics after : CacheStatistics} {left rest told : Nat}
variable {turns : List (CacheTurn κ ν)}

theorem start : Accounts .zero 0 0 ([] : List (CacheTurn κ ν)) :=
  ⟨rfl, rfl, rfl, rfl, rfl, rfl⟩

/-- An eviction is no turn of its own. -/
theorem evict (haccounts : Accounts statistics (left + 1) told turns) :
    Accounts (statistics.record .eviction) left (told + 1) turns where
  lookups := haccounts.lookups
  hits := haccounts.hits
  updates := haccounts.updates
  insertions := haccounts.insertions
  evictions := congrArg (· + 1) haccounts.evictions
  balance := by
    have hbalance := haccounts.balance
    change statistics.insertions = left + (statistics.evictions + 1) + _ + _
    omega

/-- What a turn adds to each account. -/
theorem concat (haccounts : Accounts statistics left told turns) {turn : CacheTurn κ ν}
    (hlookups : after.hits + after.misses =
      statistics.hits + statistics.misses + [turn].countP CacheTurn.isLookup)
    (hhits : after.hits = statistics.hits + [turn].countP CacheTurn.isHit)
    (hupdates : after.updates = statistics.updates + [turn].countP CacheTurn.isUpdate)
    (hinsertions : after.insertions = statistics.insertions +
      ([turn].countP CacheTurn.isFirstPut + [turn].countP CacheTurn.isAddition))
    (hevictions : after.evictions = statistics.evictions)
    (hbalance : after.insertions + left = statistics.insertions + rest +
      [turn].countP CacheTurn.isRemoval + turn.cleared) :
    Accounts after rest told (turns ++ [turn]) where
  lookups := by rw [hlookups, haccounts.lookups, List.countP_append]
  hits := by rw [hhits, haccounts.hits, List.countP_append]
  updates := by rw [hupdates, haccounts.updates, List.countP_append]
  insertions := by
    rw [hinsertions, haccounts.insertions, List.countP_append, List.countP_append]
    exact Nat.add_add_add_comm _ _ _ _
  evictions := hevictions.trans haccounts.evictions
  balance := by
    have hbefore := haccounts.balance
    rw [List.countP_append, List.map_append, List.sum_append, List.map_singleton,
      List.sum_singleton, hevictions]
    omega

end Accounts

end Accounts

/-! ## What each call does to the accounts -/

namespace RecentEntries

variable {κ : Type v} {ν : Type w} {settings : CacheSettings} {recent : RecentEntries κ ν}
variable {turns : List (CacheTurn κ ν)}

/-- The accounts of the entries agree with these turns. -/
def Accounted (recent : RecentEntries κ ν) (turns : List (CacheTurn κ ν)) : Prop :=
  Accounts recent.statistics recent.entries.length recent.evicted.length turns

theorem record_of_enabled (henabled : settings.statisticsEnabled = true)
    (recent : RecentEntries κ ν) (event : CacheEvent) :
    recent.record settings event =
      { recent with statistics := recent.statistics.record event } :=
  if_pos henabled

theorem Accounted.makeRoom (haccounted : recent.Accounted turns)
    (henabled : settings.statisticsEnabled = true) (hcapacity : 0 < settings.capacity.toNat) :
    (recent.makeRoom settings).Accounted turns := by
  rw [RecentEntries.makeRoom]
  split
  next hfull =>
    rw [record_of_enabled henabled]
    obtain ⟨front, last, hentries⟩ : ∃ front last, recent.entries = front ++ [last] := by
      rcases List.eq_nil_or_concat recent.entries with hnil | ⟨front, last, hconcat⟩
      · rw [hnil] at hfull
        exact absurd hcapacity (hfull ▸ Nat.lt_irrefl _)
      · exact ⟨front, last, hconcat.trans List.concat_eq_append⟩
    rw [Accounted, hentries, List.length_append] at haccounted
    rw [Accounted, hentries, List.dropLast_concat, List.getLast?_concat, Option.toList_some,
      List.length_append]
    exact haccounted.evict
  next => exact haccounted

variable [BEq κ] [EquivBEq κ]

theorem Proper.length_bringToFront (hproper : recent.Proper settings) {key : κ}
    {stored : κ × ν} (hfound : recent.find? key = some stored) (entry : κ × ν)
    (hkey : (entry.1 == key) = true) :
    (recent.bringToFront entry).entries.length = recent.entries.length := by
  rw [bringToFront, List.length_cons, erase_congr recent hkey]
  exact hproper.length_erase hfound

/-- A call of a cache that counts is entered into the accounts with its answer. -/
theorem Accounted.perform (haccounted : recent.Accounted turns)
    (henabled : settings.statisticsEnabled = true) (hproper : recent.Proper settings)
    {call : CacheCall κ ν} (hcall : call ≠ .resetStatistics) :
    (recent.perform settings call).2.Accounted
      (turns ++ [(recent.entries.length, call, (recent.perform settings call).1)]) := by
  cases call with
  | put key value =>
      have hready := haccounted.makeRoom henabled hproper.capacity_pos
      rw [RecentEntries.perform]
      cases hfound : recent.find? key with
      | none =>
          dsimp only
          rw [RecentEntries.insert, record_of_enabled henabled]
          refine hready.concat rfl rfl rfl rfl rfl ?_
          exact Nat.add_right_comm _ _ _
      | some stored =>
          have hkey : (stored.1 == key) = true := equal_of_find? hfound
          dsimp only
          rw [record_of_enabled henabled]
          refine haccounted.concat rfl rfl rfl rfl rfl ?_
          rw [hproper.length_bringToFront hfound (stored.1, value) hkey]
          rfl
  | tryAdd key value =>
      have hready := haccounted.makeRoom henabled hproper.capacity_pos
      rw [RecentEntries.perform]
      cases hfound : recent.find? key with
      | none =>
          dsimp only
          rw [RecentEntries.insert, record_of_enabled henabled]
          refine hready.concat rfl rfl rfl rfl rfl ?_
          exact Nat.add_right_comm _ _ _
      | some stored => exact haccounted.concat rfl rfl rfl rfl rfl rfl
  | get key =>
      rw [RecentEntries.perform]
      cases hfound : recent.find? key with
      | none =>
          dsimp only
          rw [record_of_enabled henabled]
          exact haccounted.concat rfl rfl rfl rfl rfl rfl
      | some stored =>
          dsimp only
          rw [record_of_enabled henabled]
          refine haccounted.concat ?_ rfl rfl rfl rfl ?_
          · exact Nat.add_right_comm _ _ _
          · rw [hproper.length_bringToFront hfound stored (equal_of_find? hfound)]
            rfl
  | remove key =>
      rw [RecentEntries.perform]
      cases hfound : recent.find? key with
      | none =>
          rw [erase_of_none hfound]
          exact haccounted.concat rfl rfl rfl rfl rfl rfl
      | some stored =>
          refine haccounted.concat rfl rfl rfl rfl rfl ?_
          rw [← hproper.length_erase hfound]
          rfl
  | clear => exact haccounted.concat rfl rfl rfl rfl rfl rfl
  | resetStatistics => exact absurd rfl hcall
  | peek key => exact haccounted.concat rfl rfl rfl rfl rfl rfl
  | contains key => exact haccounted.concat rfl rfl rfl rfl rfl rfl
  | oldest => exact haccounted.concat rfl rfl rfl rfl rfl rfl
  | iterate count => exact haccounted.concat rfl rfl rfl rfl rfl rfl

end RecentEntries

/-! ## A cache that does not count -/

namespace LruCache

variable {ε : Type u} {κ : Type v} {ν : Type w} [BEq κ] [Hashable κ]

/-- The same cache, but without statistics. -/
def mute (cache : LruCache ε κ ν) : LruCache ε κ ν :=
  { cache with
    settings := { cache.settings with statisticsEnabled := false }
    statistics := .zero }

/-- The same step of a cache without statistics. -/
def muteStep {ρ : Type x} (step : Step (LruCache ε κ ν) ρ) : Step (LruCache ε κ ν) ρ :=
  ⟨step.state.mute, step.result, step.log⟩

section Mute

variable (cache : LruCache ε κ ν)

@[simp]
theorem record_mute (event : CacheEvent) : cache.mute.record event = cache.mute :=
  rfl

@[simp]
theorem mute_record (event : CacheEvent) : (cache.record event).mute = cache.mute := by
  rw [record]
  split <;> rfl

theorem index_mute : cache.mute.index = cache.index :=
  rfl

theorem recency_mute : cache.mute.recency = cache.recency :=
  rfl

theorem entryAt?_mute (slot : Nat) : cache.mute.entryAt? slot = cache.entryAt? slot :=
  rfl

theorem free_mute : cache.mute.free = cache.free :=
  rfl

theorem place_mute (key : κ) (value : ν) :
    cache.mute.place key value = (cache.place key value).mute := by
  rw [place, place, allocate, allocate, free_mute]
  cases cache.free <;> rfl

theorem get_mute (key : κ) :
    cache.mute.get key = ((cache.get key).1, (cache.get key).2.mute) := by
  rw [get, get, index_mute]
  cases cache.index[key]? with
  | none =>
      dsimp only
      rw [mute_record]
      rfl
  | some slot =>
      dsimp only
      rw [mute_record]
      rfl

theorem remove_mute (key : κ) :
    cache.mute.remove key = ((cache.remove key).1, (cache.remove key).2.mute) := by
  rw [remove, remove, index_mute]
  cases cache.index[key]? <;> rfl

variable [EvictionListener ε κ ν]

theorem evict_mute : cache.mute.evict = muteStep cache.evict := by
  rw [evict, evict, muteStep, recency_mute]
  cases cache.recency.tail with
  | none => rfl
  | some slot =>
      dsimp only
      rw [mute_record, entryAt?_mute]
      cases cache.entryAt? slot <;> rfl

theorem insertNew_mute (key : κ) (value : ν) :
    cache.mute.insertNew key value = muteStep (cache.insertNew key value) := by
  have hroom : (if cache.mute.capacity.toNat ≤ cache.mute.length then cache.mute.evict
        else .quiet cache.mute ()) =
      muteStep (if cache.capacity.toNat ≤ cache.length then cache.evict else .quiet cache ()) := by
    rw [evict_mute, apply_ite muteStep]
    rfl
  rw [insertNew, insertNew, hroom]
  dsimp only [Step.andThen, Step.quiet, muteStep]
  rw [place_mute, record_mute, mute_record]

theorem put_mute (key : κ) (value : ν) :
    cache.mute.put key value = muteStep (cache.put key value) := by
  rw [put, put, insertNew_mute, index_mute]
  cases cache.index[key]? with
  | none => rfl
  | some slot =>
      dsimp only [muteStep, Step.quiet]
      rw [overwrite_record, overwrite_record, mute_record]
      rfl

theorem tryAdd_mute (key : κ) (value : ν) :
    cache.mute.tryAdd key value = muteStep (cache.tryAdd key value) := by
  rw [tryAdd, tryAdd, insertNew_mute, apply_ite muteStep]
  rfl

/-- A call of a cache without statistics does what it does with them. -/
theorem step_mute (call : CacheCall κ ν) : cache.mute.step call = muteStep (cache.step call) := by
  cases call with
  | put key value => exact congrArg (Step.map CacheAnswer.value) (cache.put_mute key value)
  | tryAdd key value => exact congrArg (Step.map CacheAnswer.flag) (cache.tryAdd_mute key value)
  | get key =>
      change Step.ofPair (CacheAnswer.value (cache.mute.get key).1, (cache.mute.get key).2) = _
      rw [get_mute]
      rfl
  | remove key =>
      change Step.ofPair (CacheAnswer.value (cache.mute.remove key).1, (cache.mute.remove key).2) = _
      rw [remove_mute]
      rfl
  | peek key => rfl
  | contains key => rfl
  | clear => rfl
  | oldest => rfl
  | resetStatistics => rfl
  | iterate count => rfl

end Mute

/-! ## Runs -/

variable [EvictionListener ε κ ν]

/-- The calls of a run in turn, each with the number of entries before it and its answer. -/
def turns (start : LruCache ε κ ν) (calls : List (CacheCall κ ν)) : List (CacheTurn κ ν) :=
  (Calls.trace perform start calls).map fun turn => (turn.1.length, turn.2)

/-- A cache without statistics shows after a run what one with statistics shows. -/
structure SameButCounts (silent counting : LruCache ε κ ν) (calls : List (CacheCall κ ν)) :
    Prop where
  statistics : (Calls.run perform silent calls).2.statistics = .zero
  answers : (Calls.run perform silent calls).1 = (Calls.run perform counting calls).1
  toList : (Calls.run perform silent calls).2.toList =
    (Calls.run perform counting calls).2.toList
  listener : (Calls.run perform silent calls).2.listener =
    (Calls.run perform counting calls).2.listener
  log : (Step.forEach step silent calls).log = (Step.forEach step counting calls).log

theorem mute_sameButCounts (counting : LruCache ε κ ν) (calls : List (CacheCall κ ν)) :
    SameButCounts counting.mute counting calls := by
  have hstep : ∀ (silent cache : LruCache ε κ ν) (call : CacheCall κ ν), silent = cache.mute →
      (step silent call).result = (step cache call).result ∧
        (step silent call).log = (step cache call).log ∧
          (step silent call).state = (step cache call).state.mute := by
    rintro silent cache call rfl
    rw [step_mute]
    exact ⟨rfl, rfl, rfl⟩
  obtain ⟨hresult, hlog, hstate⟩ := Calls.forEach_agrees hstep calls rfl
  have hsilent := Calls.forEach_eq_run perform_eq_step counting.mute calls
  have hcounting := Calls.forEach_eq_run perform_eq_step counting calls
  have hfinal : (Calls.run perform counting.mute calls).2 =
      (Calls.run perform counting calls).2.mute := by
    rw [← hsilent, ← hcounting]
    exact hstate
  exact {
    statistics := by rw [hfinal]; rfl
    answers := by
      rw [← hsilent, ← hcounting]
      exact hresult
    toList := by rw [hfinal]; rfl
    listener := by rw [hfinal]; rfl
    log := hlog }

omit [BEq κ] [Hashable κ] in
theorem toList_notify (entries : List (κ × ν)) (record : EvictionRecord κ ν) :
    (notify record entries).toList = record.toList ++ entries := by
  induction entries generalizing record with
  | nil => exact (List.append_nil _).symm
  | cons entry entries ih =>
      refine (ih _).trans ?_
      change (record.entries.push entry).toList ++ entries = _
      rw [Array.toList_push, List.append_assoc]
      rfl

variable [EquivBEq κ] [LawfulHashable κ]
variable {settings : CacheSettings} {listener : ε} {cache : LruCache ε κ ν}
variable {recent : RecentEntries κ ν}

/-- The accounts are kept by every call that does not reset the statistics. -/
theorem Follows.accounted_run (hfollows : Follows settings listener cache recent)
    (hcapacity : 0 < settings.capacity.toNat) (henabled : settings.statisticsEnabled = true)
    (haccounted : recent.Accounted []) (calls : List (CacheCall κ ν))
    (hcalls : .resetStatistics ∉ calls) :
    (Calls.run (RecentEntries.perform settings) recent calls).2.Accounted (turns cache calls) := by
  induction calls using List.reverseRecOn with
  | nil => exact haccounted
  | append_singleton calls call ih =>
      rw [List.mem_append, not_or, List.mem_singleton] at hcalls
      have hbefore := (hfollows.run hcapacity calls).2
      have hanswer := (hbefore.perform hcapacity call).1
      rw [Calls.run_concat, turns, Calls.trace_concat, List.map_append, List.map_singleton,
        hbefore.agrees.length, hanswer]
      exact (ih hcalls.1).perform henabled (hbefore.proper hcapacity) (Ne.symm hcalls.2)

/-- The statistics of a new cache that counts agree with the calls, their answers and all that
any listener was told of, as long as they are not reset; and a cache that does not count shows
the same but for the statistics. -/
theorem withListener_run_accounts (capacity : UInt64) (listener : ε) (hcapacity : 1 ≤ capacity) :
    ∃ (counting silent : LruCache ε κ ν) (recorder : LruCache (EvictionRecord κ ν) κ ν),
      withListener ⟨capacity, true⟩ listener = .ok counting ∧
        withListener ⟨capacity, false⟩ listener = .ok silent ∧
          withListener ⟨capacity, true⟩ .empty = .ok recorder ∧
      ∀ calls : List (CacheCall κ ν),
        let final := (Calls.run perform counting calls).2
        let told := (Calls.run perform recorder calls).2.listener.toList
        final.listener = notify listener told ∧
          (.resetStatistics ∉ calls →
            Accounts final.statistics final.length told.length (counting.turns calls)) ∧
              SameButCounts silent counting calls := by
  have hpositive : 0 < capacity.toNat := UInt64.le_iff_toNat_le.mp hcapacity
  obtain ⟨counting, hcounting⟩ : ∃ cache : LruCache ε κ ν,
      withListener ⟨capacity, true⟩ listener = .ok cache :=
    ⟨_, withListener_eq_ok_iff.mpr ⟨hpositive, rfl⟩⟩
  obtain ⟨recorder, hrecorder⟩ : ∃ cache : LruCache (EvictionRecord κ ν) κ ν,
      withListener ⟨capacity, true⟩ .empty = .ok cache :=
    ⟨_, withListener_eq_ok_iff.mpr ⟨hpositive, rfl⟩⟩
  have hsilent : withListener ⟨capacity, false⟩ listener = .ok counting.mute := by
    rw [(withListener_eq_ok_iff.mp hcounting).2]
    exact withListener_eq_ok_iff.mpr ⟨hpositive, rfl⟩
  refine ⟨counting, counting.mute, recorder, hcounting, hsilent, hrecorder, ?_⟩
  intro calls final told
  have hstart := follows_of_withListener hcounting
  have hfinal := (hstart.run hpositive calls).2
  have hrecorded := ((follows_of_withListener hrecorder).run hpositive calls).2.listener_eq
  have htold : told =
      (Calls.run (RecentEntries.perform ⟨capacity, true⟩) .empty calls).2.evicted := by
    change (Calls.run perform recorder calls).2.listener.toList = _
    rw [hrecorded, toList_notify]
    rfl
  refine ⟨htold ▸ hfinal.listener_eq, ?_, mute_sameButCounts counting calls⟩
  intro hcalls
  have haccounted := hstart.accounted_run hpositive rfl Accounts.start calls hcalls
  rw [RecentEntries.Accounted, ← hfinal.statistics_eq, ← hfinal.agrees.length, ← htold]
    at haccounted
  exact haccounted

/-- Calls of a cache with two entries in which an entry is evicted, one is removed, two are
cleared, and look-ups, puts and additions find their key or not. -/
def accountedCalls : List (CacheCall Nat Int64) :=
  [.put 1 10, .put 2 20, .get 1, .put 1 11, .tryAdd 3 30, .tryAdd 3 31, .get 2, .remove 1,
    .remove 2, .put 4 40, .clear, .put 5 50]

theorem withListener_run_accounts_accountedCalls :
    1 ≤ (2 : UInt64) ∧ .resetStatistics ∉ accountedCalls ∧
      ∃ counting silent : LruCache NoListener Nat Int64,
        withListener ⟨2, true⟩ .silent = .ok counting ∧
          withListener ⟨2, false⟩ .silent = .ok silent ∧
            Accounts ⟨1, 1, 5, 1, 1⟩ 1 1 (counting.turns accountedCalls) ∧
              SameButCounts silent counting accountedCalls := by
  have hcapacity : 1 ≤ (2 : UInt64) := by decide
  have hcalls : .resetStatistics ∉ accountedCalls := by simp [accountedCalls]
  obtain ⟨counting, silent, recorder, hcounting, hsilent, hrecorder, hruns⟩ :=
    @withListener_run_accounts NoListener Nat Int64 _ _ _ _ _ 2 .silent hcapacity
  obtain ⟨-, haccounts, hsame⟩ := hruns accountedCalls
  refine ⟨hcapacity, hcalls, counting, silent, hcounting, hsilent, ?_, hsame⟩
  have hfinal := haccounts hcalls
  obtain ⟨-, rfl⟩ := withListener_eq_ok_iff.mp hcounting
  obtain ⟨-, rfl⟩ := withListener_eq_ok_iff.mp hrecorder
  have hcounted : (Calls.run perform
      (⟨⟨2, true⟩, ∅, #[], .empty, [], .zero, .silent⟩ : LruCache NoListener Nat Int64)
      accountedCalls).2.statistics = ⟨1, 1, 5, 1, 1⟩ := by
    cbv
  have hleft : (Calls.run perform
      (⟨⟨2, true⟩, ∅, #[], .empty, [], .zero, .silent⟩ : LruCache NoListener Nat Int64)
      accountedCalls).2.length = 1 := by
    cbv
  have htold : (Calls.run perform
      (⟨⟨2, true⟩, ∅, #[], .empty, [], .zero, .empty⟩ :
        LruCache (EvictionRecord Nat Int64) Nat Int64)
      accountedCalls).2.listener.toList.length = 1 := by
    cbv
  rwa [hcounted, hleft, htold] at hfinal

end LruCache

end Collections
