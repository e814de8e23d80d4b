import Mathlib
import Collections.Proofs.Lru.CacheRuns

/-!
# Caches and the history of their use

What a cache without removals holds can be told from the calls that were made and their
answers alone.  If all keys that were used are ordered by their last use, the cache holds as
many of the first ones as it has room for, whatever was dropped and added again meanwhile.
So a look-up finds its key exactly if fewer other keys than the capacity were used since.
-/

namespace Collections

universe u v w

/-! ## Keys by their first occurrence -/

section Keys

variable {κ : Type v} [BEq κ]

/-- To prove something about a list, assume it of the tail without the repetitions of the
head, as these are taken out. -/
theorem eraseDups_induction {motive : List κ → Prop} (hnil : motive [])
    (hcons : ∀ head rest, motive (rest.filter fun other => !(other == head)) →
      motive (head :: rest)) : ∀ keys, motive keys
  | [] => hnil
  | head :: rest => by
      have hshorter : (rest.filter fun other => !(other == head)).length < rest.length + 1 :=
        Nat.lt_succ_of_le (List.length_filter_le _ rest)
      exact hcons head rest (eraseDups_induction hnil hcons _)
termination_by keys => keys.length

theorem eraseDups_sublist (keys : List κ) : keys.eraseDups.Sublist keys := by
  induction keys using eraseDups_induction with
  | hnil => exact .slnil
  | hcons head rest ih =>
      rw [List.eraseDups_cons]
      exact (ih.trans List.filter_sublist).cons_cons head

theorem pairwise_eraseDups (keys : List κ) :
    keys.eraseDups.Pairwise fun first second => ¬ (second == first) = true := by
  induction keys using eraseDups_induction with
  | hnil => exact .nil
  | hcons head rest ih =>
      rw [List.eraseDups_cons, List.pairwise_cons]
      refine ⟨?_, ih⟩
      intro other hother
      have hkept := (List.mem_filter.mp ((eraseDups_sublist _).subset hother)).2
      simpa using hkept

/-- The keys before the first occurrence of a key keep their order in front of it. -/
theorem eraseDups_append_cons {last : κ} (before since : List κ)
    (hsince : ∀ other ∈ since, ¬ (last == other) = true) :
    ∃ rest, (since ++ last :: before).eraseDups = since.eraseDups ++ last :: rest := by
  induction since using eraseDups_induction generalizing before with
  | hnil => exact ⟨_, List.eraseDups_cons⟩
  | hcons head tail ih =>
      have hhead : (last == head) = false := by
        simpa using hsince head List.mem_cons_self
      obtain ⟨rest, hrest⟩ := ih _ fun other hother =>
        hsince other (List.mem_cons_of_mem _ (List.mem_filter.mp hother).1)
      refine ⟨rest, ?_⟩
      rw [List.cons_append, List.eraseDups_cons, List.eraseDups_cons, List.filter_append,
        List.filter_cons_of_pos (by simp [hhead]), hrest]
      rfl

variable [EquivBEq κ] {key : κ}

/-- Taking out a key before or after the repetitions of all others. -/
theorem eraseDups_filter (keys : List κ) :
    (keys.filter fun other => !(other == key)).eraseDups =
      keys.eraseDups.filter fun other => !(other == key) := by
  induction keys using eraseDups_induction with
  | hnil => rfl
  | hcons head rest ih =>
      rw [List.eraseDups_cons, List.filter_cons, List.filter_cons]
      cases hkey : head == key with
      | true =>
          have hequal : (fun other : κ => !(other == head)) = fun other => !(other == key) := by
            funext other
            rw [BEq.congr_right hkey]
          rw [hequal]
          symm
          apply List.filter_eq_self.mpr
          intro other hother
          exact (List.mem_filter.mp ((eraseDups_sublist _).subset hother)).2
      | false =>
          change (head :: rest.filter _).eraseDups = head :: (List.filter _ _).eraseDups.filter _
          rw [List.eraseDups_cons, ← ih, List.filter_filter, List.filter_filter]
          simp only [Bool.and_comm]

/-- Once a key that is among the first ones is taken out, one key fewer is first. -/
theorem take_filter_of_mem {keys : List κ} {count : Nat} {stored : κ}
    (hdistinct : keys.Pairwise fun first second => ¬ (second == first) = true)
    (hstored : stored ∈ keys.take (count + 1)) (hkey : (stored == key) = true) :
    (keys.filter fun other => !(other == key)).take count =
      (keys.take (count + 1)).filter fun other => !(other == key) := by
  induction keys generalizing count with
  | nil => exact absurd hstored List.not_mem_nil
  | cons head tail ih =>
      obtain ⟨hhead, htail⟩ := List.pairwise_cons.mp hdistinct
      rw [List.take_succ_cons, List.filter_cons, List.filter_cons]
      cases hequal : head == key with
      | true =>
          have hkept : ∀ other ∈ tail, (!(other == key)) = true := by
            intro other hother
            rw [← BEq.congr_right hequal]
            simpa using hhead other hother
          rw [List.filter_eq_self.mpr hkept,
            List.filter_eq_self.mpr fun other hother => hkept other (List.mem_of_mem_take hother)]
          rfl
      | false =>
          rcases List.mem_cons.mp (List.take_succ_cons ▸ hstored) with hfirst | hlater
          · rw [← hfirst, hkey] at hequal
            exact absurd hequal Bool.true_eq_false.mp
          · cases count with
            | zero => exact absurd hlater List.not_mem_nil
            | succ count => exact congrArg (List.cons head) (ih htail hlater)

omit [EquivBEq κ] in
/-- Taking out a key that is not among the first ones leaves these. -/
theorem take_filter_of_absent {keys : List κ} {count : Nat}
    (habsent : ∀ other ∈ keys.take count, ¬ (other == key) = true) :
    (keys.filter fun other => !(other == key)).take count = keys.take count := by
  induction keys generalizing count with
  | nil => rfl
  | cons head tail ih =>
      cases count with
      | zero => rw [List.take_zero, List.take_zero]
      | succ count =>
          rw [List.take_succ_cons, List.forall_mem_cons] at habsent
          rw [List.filter_cons_of_pos (by simpa using habsent.1), List.take_succ_cons,
            List.take_succ_cons, ih habsent.2]

/-- Whether entries have a key can be told from keys that are equal to theirs. -/
theorem exists_equal_iff {ν : Type w} {entries : List (κ × ν)} {keys : List κ}
    (hkeys : List.Forall₂ (fun entry other => (entry.1 == other) = true) entries keys) (key : κ) :
    (∃ entry ∈ entries, (entry.1 == key) = true) ↔ ∃ other ∈ keys, (other == key) = true := by
  induction hkeys with
  | nil => simp only [List.not_mem_nil, false_and, exists_false]
  | cons hequal _ ih =>
      rw [List.exists_mem_cons_iff, List.exists_mem_cons_iff, ih, BEq.congr_left hequal]

/-- A key was used, and fewer than so many different keys since then; the latest use is the
first one. -/
def UsedWithin (count : Nat) (uses : List κ) (key : κ) : Prop :=
  ∃ since last before, uses = since ++ last :: before ∧ (last == key) = true ∧
    (∀ other ∈ since, ¬ (other == key) = true) ∧ since.eraseDups.length < count

theorem usedWithin_iff {count : Nat} {uses : List κ} :
    UsedWithin count uses key ↔ ∃ other ∈ uses.eraseDups.take count, (other == key) = true := by
  have hsplit : ∀ {since : List κ} {last : κ}, (last == key) = true →
      (∀ other ∈ since, ¬ (other == key) = true) →
        ∀ other ∈ since, ¬ (last == other) = true := by
    intro since last hlast hsince other hother hequal
    exact hsince other hother (BEq.trans (BEq.symm hequal) hlast)
  constructor
  · intro hused
    obtain ⟨since, last, before, rfl, hlast, hsince, hcount⟩ := hused
    obtain ⟨rest, hrest⟩ := eraseDups_append_cons before since (hsplit hlast hsince)
    refine ⟨last, ?_, hlast⟩
    rw [hrest, List.mem_take_iff_getElem]
    exact ⟨since.eraseDups.length, by simp [hcount], by simp⟩
  · intro hfound
    obtain ⟨other, hother, hequal⟩ := hfound
    have hmem : other ∈ uses := (eraseDups_sublist uses).subset (List.mem_of_mem_take hother)
    obtain ⟨last, hlast⟩ : ∃ last, uses.find? (· == key) = some last :=
      Option.isSome_iff_exists.mp (List.find?_isSome.mpr ⟨other, hmem, hequal⟩)
    obtain ⟨hkey, since, before, rfl, hsince⟩ := List.find?_eq_some_iff_append.mp hlast
    have habsent : ∀ item ∈ since, ¬ (item == key) = true := by
      intro item hitem
      simpa using hsince item hitem
    refine ⟨since, last, before, rfl, hkey, habsent, ?_⟩
    obtain ⟨rest, hrest⟩ := eraseDups_append_cons before since (hsplit hkey habsent)
    by_contra hfar
    rw [hrest, List.take_append_of_le_length (Nat.le_of_not_lt hfar)] at hother
    exact habsent other ((eraseDups_sublist since).subset (List.mem_of_mem_take hother)) hequal

end Keys

/-! ## What a history tells -/

section History

variable {κ : Type v} {ν : Type w}

/-- A call that takes out no entry by itself. -/
def CacheCall.KeepsEntries : CacheCall κ ν → Prop
  | .remove _ => False
  | .clear => False
  | _ => True

/-- The calls of a cache with their answers, the first one first. -/
abbrev CacheHistory (κ : Type v) (ν : Type w) : Type (max v w) :=
  List (CacheCall κ ν × CacheAnswer κ ν)

namespace CacheHistory

/-- The key that a call used, as its answer tells. -/
def used? : CacheCall κ ν × CacheAnswer κ ν → Option κ
  | (.put key _, _) => some key
  | (.tryAdd key _, .flag true) => some key
  | (.get key, .value (some _)) => some key
  | _ => none

/-- The entry that a call wrote, as its answer tells. -/
def written? : CacheCall κ ν × CacheAnswer κ ν → Option (κ × ν)
  | (.put key value, _) => some (key, value)
  | (.tryAdd key value, .flag true) => some (key, value)
  | _ => none

/-- The keys that were used, the latest use first. -/
def uses (history : CacheHistory κ ν) : List κ :=
  (history.filterMap used?).reverse

variable [BEq κ]

/-- The different keys that were used, in the order of their last use, latest first. -/
def recentKeys (history : CacheHistory κ ν) : List κ :=
  (uses history).eraseDups

/-- The value that was written last under a key. -/
def lastValue? (history : CacheHistory κ ν) (key : κ) : Option ν :=
  ((history.filterMap written?).reverse.find? fun entry => entry.1 == key).map Prod.snd

variable (history : CacheHistory κ ν)
variable {event : CacheCall κ ν × CacheAnswer κ ν} {key : κ} {value : ν}

theorem recentKeys_concat_of_none (hused : used? event = none) :
    recentKeys (history ++ [event]) = recentKeys history := by
  rw [recentKeys, uses, List.filterMap_append, List.filterMap_cons_none hused,
    List.filterMap_nil, List.append_nil]
  rfl

theorem recentKeys_concat [EquivBEq κ] (hused : used? event = some key) :
    recentKeys (history ++ [event]) =
      key :: (recentKeys history).filter fun other => !(other == key) := by
  rw [recentKeys, uses, List.filterMap_append, List.filterMap_cons_some hused,
    List.filterMap_nil, List.reverse_append, List.reverse_singleton, List.singleton_append,
    List.eraseDups_cons, eraseDups_filter]
  rfl

theorem lastValue?_concat_of_none (hwritten : written? event = none) (other : κ) :
    lastValue? (history ++ [event]) other = lastValue? history other := by
  rw [lastValue?, List.filterMap_append, List.filterMap_cons_none hwritten,
    List.filterMap_nil, List.append_nil]
  rfl

theorem lastValue?_concat (hwritten : written? event = some (key, value)) (other : κ) :
    lastValue? (history ++ [event]) other =
      if (key == other) = true then some value else lastValue? history other := by
  rw [lastValue?, List.filterMap_append, List.filterMap_cons_some hwritten,
    List.filterMap_nil, List.reverse_append, List.reverse_singleton, List.singleton_append,
    List.find?_cons]
  cases key == other <;> rfl

end CacheHistory

end History

/-! ## Recent entries and their history -/

namespace RecentEntries

open CacheHistory

variable {κ : Type v} {ν : Type w} [BEq κ]
variable {settings : CacheSettings} {recent : RecentEntries κ ν}

/-- What a call and its answer tell of the entries that the call leaves. -/
inductive Effect (settings : CacheSettings) (recent : RecentEntries κ ν)
    (event : CacheCall κ ν × CacheAnswer κ ν) (entries : List (κ × ν)) : Prop
  /-- No key was used, and nothing changes. -/
  | unused (hused : used? event = none) (hwritten : written? event = none)
      (hentries : entries = recent.entries)
  /-- A key that is there was used, and written or not. -/
  | reused (key : κ) (stored : κ × ν) (value : ν) (hfound : recent.find? key = some stored)
      (hused : used? event = some key)
      (hwritten : written? event = some (key, value) ∨
        written? event = none ∧ value = stored.2)
      (hentries : entries = (stored.1, value) :: (recent.erase key).entries)
  /-- A new key was written. -/
  | added (key : κ) (value : ν) (habsent : recent.find? key = none)
      (hused : used? event = some key) (hwritten : written? event = some (key, value))
      (hentries : entries = (key, value) :: (recent.makeRoom settings).entries)

theorem perform_effect [EquivBEq κ] (settings : CacheSettings) (recent : RecentEntries κ ν)
    {call : CacheCall κ ν} (hcall : call.KeepsEntries) :
    Effect settings recent (call, (recent.perform settings call).1)
      (recent.perform settings call).2.entries := by
  cases call with
  | put key value =>
      rw [perform]
      cases hfound : recent.find? key with
      | some stored =>
          refine .reused key stored value hfound rfl (.inl rfl) ?_
          rw [← erase_congr recent (equal_of_find? hfound)]
          exact entries_record settings _ _
      | none => exact .added key value hfound rfl rfl (entries_record settings _ _)
  | tryAdd key value =>
      rw [perform]
      cases hfound : recent.find? key with
      | some stored => exact .unused rfl rfl rfl
      | none => exact .added key value hfound rfl rfl (entries_record settings _ _)
  | get key =>
      rw [perform]
      cases hfound : recent.find? key with
      | some stored =>
          refine .reused key stored stored.2 hfound rfl (.inr ⟨rfl, rfl⟩) ?_
          rw [← erase_congr recent (equal_of_find? hfound)]
          exact entries_record settings _ _
      | none => exact .unused rfl rfl (entries_record settings _ _)
  | remove key => exact hcall.elim
  | clear => exact hcall.elim
  | peek key => exact .unused rfl rfl rfl
  | contains key => exact .unused rfl rfl rfl
  | oldest => exact .unused rfl rfl rfl
  | resetStatistics => exact .unused rfl rfl rfl
  | iterate count => exact .unused rfl rfl rfl

/-- The entries are those of the first keys in the order of their last use, as many as there
is room for, each with the value that was written last. -/
structure Recalled (settings : CacheSettings) (history : CacheHistory κ ν)
    (recent : RecentEntries κ ν) : Prop where
  keys : List.Forall₂ (fun entry key => (entry.1 == key) = true) recent.entries
    ((recentKeys history).take settings.capacity.toNat)
  values : ∀ entry ∈ recent.entries, lastValue? history entry.1 = some entry.2

variable {history : CacheHistory κ ν}
variable {event : CacheCall κ ν × CacheAnswer κ ν}

variable [EquivBEq κ]

/-- A key finds an entry exactly if it is equal to one of the first keys. -/
theorem Recalled.find?_isSome_iff (hrecalled : recent.Recalled settings history) (key : κ) :
    (recent.find? key).isSome = true ↔
      ∃ other ∈ (recentKeys history).take settings.capacity.toNat, (other == key) = true := by
  rw [find?, List.find?_isSome]
  exact exists_equal_iff hrecalled.keys key

theorem Recalled.find?_isSome_iff_usedWithin (hrecalled : recent.Recalled settings history)
    (key : κ) : (recent.find? key).isSome = true ↔
      UsedWithin settings.capacity.toNat (uses history) key := by
  rw [hrecalled.find?_isSome_iff, usedWithin_iff]
  rfl

omit [BEq κ] [EquivBEq κ] in
/-- Without the last one of as many entries as there may be, there is room for one more. -/
theorem entries_makeRoom_eq_take {count : Nat} (hcapacity : settings.capacity.toNat = count + 1)
    (hlength : recent.entries.length ≤ count + 1) :
    (recent.makeRoom settings).entries = recent.entries.take count := by
  rw [entries_makeRoom, hcapacity]
  by_cases hfull : recent.entries.length = count + 1
  · rw [if_pos hfull, List.dropLast_eq_take, hfull, Nat.add_sub_cancel]
  · have hroom : recent.entries.length ≤ count := by omega
    rw [if_neg hfull, List.take_of_length_le hroom]

omit [BEq κ] [EquivBEq κ] in
theorem makeRoom_subset : (recent.makeRoom settings).entries ⊆ recent.entries := by
  rw [entries_makeRoom]
  split
  · exact List.dropLast_subset _
  · exact List.Subset.refl _

theorem Recalled.keys_concat (hrecalled : recent.Recalled settings history)
    (hcapacity : 0 < settings.capacity.toNat) {entries : List (κ × ν)}
    (heffect : Effect settings recent event entries) :
    List.Forall₂ (fun entry key => (entry.1 == key) = true) entries
      ((recentKeys (history ++ [event])).take settings.capacity.toNat) := by
  obtain ⟨count, hcount⟩ := Nat.exists_eq_add_one_of_ne_zero hcapacity.ne'
  have hkeys := hrecalled.keys
  rw [hcount] at hkeys ⊢
  cases heffect with
  | unused hused _ hentries =>
      rw [recentKeys_concat_of_none history hused, hentries]
      exact hkeys
  | reused key stored value hfound hused _ hentries =>
      have hstored := equal_of_find? hfound
      -- The key is among the first ones, so bringing it to the front pushes none of them out.
      obtain ⟨other, hother, hequal⟩ := (hrecalled.find?_isSome_iff key).mp
        (hfound ▸ rfl)
      rw [hcount] at hother
      have hdistinct : (recentKeys history).Pairwise
          fun first second => ¬ (second == first) = true := pairwise_eraseDups _
      rw [recentKeys_concat history hused, hentries, List.take_succ_cons,
        take_filter_of_mem hdistinct hother hequal]
      refine .cons hstored (List.rel_filter ?_ hkeys)
      intro entry other hsame
      dsimp only
      rw [BEq.congr_left hsame]
  | added key value habsent hused _ hentries =>
      -- The key may stand further back, if it was dropped before; the first ones stay in place.
      have hmissing : ∀ other ∈ (recentKeys history).take count, ¬ (other == key) = true := by
        intro other hother hequal
        have hfound := (hrecalled.find?_isSome_iff key).mpr
          ⟨other, hcount ▸ (List.take_subset_take_left _ (Nat.le_succ count)) hother, hequal⟩
        rw [habsent] at hfound
        exact absurd hfound Bool.false_ne_true
      have hlength : recent.entries.length ≤ count + 1 := by
        rw [hkeys.length_eq]
        exact List.length_take_le _ _
      rw [recentKeys_concat history hused, hentries, List.take_succ_cons,
        take_filter_of_absent hmissing, entries_makeRoom_eq_take hcount hlength]
      have hfirst := List.forall₂_take count hkeys
      rw [List.take_take, Nat.min_eq_left (Nat.le_succ count)] at hfirst
      exact .cons BEq.rfl hfirst

/-- An entry with another key keeps the value that was written last under its key. -/
theorem Recalled.lastValue?_of_unequal (hrecalled : recent.Recalled settings history)
    {key : κ} {value : ν}
    (hwritten : written? event = some (key, value) ∨ written? event = none)
    {entry : κ × ν} (hentry : entry ∈ recent.entries) (hkey : ¬ (entry.1 == key) = true) :
    lastValue? (history ++ [event]) entry.1 = some entry.2 := by
  rcases hwritten with hsome | hnone
  · rw [lastValue?_concat history hsome, if_neg fun hequal => hkey (BEq.symm hequal)]
    exact hrecalled.values entry hentry
  · rw [lastValue?_concat_of_none history hnone]
    exact hrecalled.values entry hentry

theorem Recalled.values_concat (hrecalled : recent.Recalled settings history)
    {entries : List (κ × ν)} (heffect : Effect settings recent event entries) :
    ∀ entry ∈ entries, lastValue? (history ++ [event]) entry.1 = some entry.2 := by
  cases heffect with
  | unused _ hwritten hentries =>
      intro entry hentry
      rw [lastValue?_concat_of_none history hwritten]
      exact hrecalled.values entry (hentries ▸ hentry)
  | reused key stored value hfound _ hwritten hentries =>
      rw [hentries, List.forall_mem_cons]
      constructor
      · have hstored := hrecalled.values stored (List.mem_of_find?_eq_some hfound)
        rcases hwritten with hsome | ⟨hnone, hvalue⟩
        · rw [lastValue?_concat history hsome, if_pos (BEq.symm (equal_of_find? hfound))]
        · rw [lastValue?_concat_of_none history hnone, hstored, hvalue]
      · intro entry hentry
        obtain ⟨hmem, hkey⟩ := List.mem_filter.mp hentry
        exact hrecalled.lastValue?_of_unequal (hwritten.imp_right And.left) hmem
          (by simpa using hkey)
  | added key value habsent _ hwritten hentries =>
      rw [hentries, List.forall_mem_cons]
      constructor
      · rw [lastValue?_concat history hwritten, if_pos BEq.rfl]
      · intro entry hentry
        have hmem := makeRoom_subset hentry
        exact hrecalled.lastValue?_of_unequal (.inl hwritten) hmem
          (List.find?_eq_none.mp habsent entry hmem)

omit [EquivBEq κ] in
/-- Before the first call no key was used. -/
theorem recalled_empty (settings : CacheSettings) :
    (empty : RecentEntries κ ν).Recalled settings [] where
  keys := by
    have hnone : recentKeys ([] : CacheHistory κ ν) = [] := rfl
    rw [hnone, List.take_nil]
    exact .nil
  values := fun _ hentry => absurd hentry List.not_mem_nil

theorem Recalled.run (hcapacity : 0 < settings.capacity.toNat) (calls : List (CacheCall κ ν))
    (hcalls : ∀ call ∈ calls, call.KeepsEntries) :
    ∀ {history : CacheHistory κ ν} {recent : RecentEntries κ ν},
      recent.Recalled settings history →
        (Calls.run (perform settings) recent calls).2.Recalled settings
          (history ++ calls.zip (Calls.run (perform settings) recent calls).1) := by
  induction calls with
  | nil =>
      intro history recent hrecalled
      rw [List.zip_nil_left, List.append_nil]
      exact hrecalled
  | cons call calls ih =>
      intro history recent hrecalled
      obtain ⟨hcall, hrest⟩ := List.forall_mem_cons.mp hcalls
      have heffect := perform_effect settings recent hcall
      have hnext : (recent.perform settings call).2.Recalled settings
          (history ++ [(call, (recent.perform settings call).1)]) :=
        ⟨hrecalled.keys_concat hcapacity heffect, hrecalled.values_concat heffect⟩
      rw [Calls.run, List.zip_cons_cons, List.append_cons]
      exact ih hrest hnext

end RecentEntries

/-! ## Caches and their history -/

namespace LruCache

open CacheHistory

variable {ε : Type u} {κ : Type v} {ν : Type w} [BEq κ] [Hashable κ]

/-- A walk over a cache yields as many as it has room for of the keys that were used, in the
order of their last use, each with the value that was written last, and a look-up finds a key
exactly if fewer other keys than the capacity were used since its last use. -/
structure Recalls (capacity : Nat) (history : CacheHistory κ ν)
    (cache : LruCache ε κ ν) : Prop where
  walk : ∀ count, Cursor.calls count cache.walk = Cursor.visits cache.toList count
  keys : List.Forall₂ (fun entry key => (entry.1 == key) = true) cache.toList
    ((recentKeys history).take capacity)
  length : cache.toList.length = min capacity (recentKeys history).length
  values : ∀ entry ∈ cache.toList, lastValue? history entry.1 = some entry.2
  get_hits : ∀ key, (cache.get key).1.isSome = true ↔ UsedWithin capacity (uses history) key

variable [EquivBEq κ] [LawfulHashable κ] [EvictionListener ε κ ν]
variable {settings : CacheSettings} {listener : ε} {cache : LruCache ε κ ν}
variable {recent : RecentEntries κ ν}

omit [LawfulHashable κ] in
theorem Follows.isSome_get (hfollows : Follows settings listener cache recent) (key : κ) :
    (cache.get key).1.isSome = (recent.find? key).isSome := by
  have hanswer := (hfollows.get key).1
  rw [RecentEntries.perform] at hanswer
  cases hfound : recent.find? key with
  | none =>
      rw [hfound] at hanswer
      rw [CacheAnswer.value.inj hanswer]
      rfl
  | some stored =>
      rw [hfound] at hanswer
      rw [CacheAnswer.value.inj hanswer]
      rfl

theorem Follows.recalls (hfollows : Follows settings listener cache recent)
    {history : CacheHistory κ ν}
    (hrecalled : recent.Recalled settings history) :
    Recalls settings.capacity.toNat history cache := by
  have hagrees := hfollows.agrees
  exact {
    walk := fun count => hagrees.toList ▸ hagrees.walk count
    keys := hagrees.toList ▸ hrecalled.keys
    length := by rw [hagrees.toList, hrecalled.keys.length_eq, List.length_take]
    values := hagrees.toList ▸ hrecalled.values
    get_hits := fun key => by
      rw [hfollows.isSome_get]
      exact hrecalled.find?_isSome_iff_usedWithin key }

/-- What a new cache holds after a run without removals is told by the history of the run. -/
theorem withListener_run_recalls (settings : CacheSettings) (listener : ε)
    (hcapacity : 1 ≤ settings.capacity) :
    ∃ start : LruCache ε κ ν, withListener settings listener = .ok start ∧
      ∀ calls : List (CacheCall κ ν), (∀ call ∈ calls, call.KeepsEntries) →
        Recalls settings.capacity.toNat (calls.zip (Calls.run perform start calls).1)
          (Calls.run perform start calls).2 := by
  have hpositive : 0 < settings.capacity.toNat := UInt64.le_iff_toNat_le.mp hcapacity
  have hstart := withListener_eq_ok_iff.mpr
    ⟨hpositive, (rfl : (⟨settings, ∅, #[], .empty, [], .zero, listener⟩ : LruCache ε κ ν) = _)⟩
  refine ⟨_, hstart, ?_⟩
  intro calls hcalls
  obtain ⟨hanswers, hfollows⟩ := Calls.run_agrees_of_related
    (fun _ _ call hrelated => hrelated.perform hpositive call) calls
    (follows_of_withListener hstart)
  rw [hanswers]
  exact hfollows.recalls ((RecentEntries.recalled_empty settings).run hpositive calls hcalls)

/-- Calls in which a key is dropped and added again, one look-up fails, and a key that is
there is not added. -/
def forgettingCalls : List (CacheCall Nat Int64) :=
  [.put 1 10, .put 2 20, .put 3 30, .get 1, .tryAdd 2 21, .put 1 11, .tryAdd 2 22, .get 3,
    .get 1]

theorem withListener_run_recalls_forgettingCalls :
    1 ≤ CacheSettings.capacity ⟨2, true⟩ ∧ (∀ call ∈ forgettingCalls, call.KeepsEntries) ∧
      ∃ start : LruCache NoListener Nat Int64, withListener ⟨2, true⟩ .silent = .ok start ∧
        recentKeys (forgettingCalls.zip (Calls.run perform start forgettingCalls).1) =
          [1, 2, 3] ∧
        (Calls.run perform start forgettingCalls).2.toList = [(1, 11), (2, 22)] ∧
        Recalls 2 (forgettingCalls.zip (Calls.run perform start forgettingCalls).1)
          (Calls.run perform start forgettingCalls).2 := by
  have hcapacity : 1 ≤ CacheSettings.capacity ⟨2, true⟩ := by decide
  have hcalls : ∀ call ∈ forgettingCalls, call.KeepsEntries := by
    simp [forgettingCalls, CacheCall.KeepsEntries]
  obtain ⟨start, hstart, hruns⟩ := @withListener_run_recalls NoListener Nat Int64
    _ _ _ _ _ ⟨2, true⟩ .silent hcapacity
  have hrecalls := hruns forgettingCalls hcalls
  obtain ⟨-, rfl⟩ := withListener_eq_ok_iff.mp hstart
  exact ⟨hcapacity, hcalls, _, hstart, by cbv, by cbv, hrecalls⟩

end LruCache

end Collections
