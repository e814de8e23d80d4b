import Mathlib
import Collections.Proofs.Text.LowerCase
import Collections.Proofs.Graph.MatrixSizes
import Collections.Proofs.Settings.SavedSettings

/-!
# Settings of an environment

A capacity is the number that a variable spells, and the standard one if it spells none or one
that no capacity can be.  The numbers that a variable can spell and those that a collection can be
built with are not the same: a capacity of zero is read, and then refused.
-/

namespace Collections

theorem fromUTF8?_eq_some_iff {bytes : ByteArray} {text : String} :
    String.fromUTF8? bytes = some text ↔ bytes = text.toUTF8 := by
  constructor
  · intro hread
    rw [String.fromUTF8?] at hread
    split at hread
    next hvalid =>
      rw [← Option.some.inj hread]
      rfl
    next => exact absurd hread (by simp)
  · rintro rfl
    exact fromUTF8?_toUTF8 text

namespace Environment

variable {environment : Environment} {name : String} {text : String} {fallback : UInt64}

/-- A variable is set to a numeral for a number, with or without blanks around it. -/
def Spells (environment : Environment) (name : String) (value : Nat) : Prop :=
  ∃ text numeral, environment name = some (String.toUTF8 text) ∧
    Text.Padded numeral text.toList ∧ Text.Numeral numeral value

/-- The capacity that a variable stands for.  Every number of 64 bits can be one. -/
structure CapacityOf (environment : Environment) (name : String) (standard capacity : UInt64) :
    Prop where
  spelled : ∀ value, environment.Spells name value → value < 2 ^ 64 → capacity.toNat = value
  /-- The variable is unset, it spells no number, or one that is too large. -/
  otherwise : (∀ value, environment.Spells name value → 2 ^ 64 ≤ value) → capacity = standard

/-- The flag that a variable stands for, wherever a word ends in its text. -/
structure FlagOf (environment : Environment) (name : String) (standard flag : Bool) : Prop where
  unset : (∀ text, environment name ≠ some (String.toUTF8 text)) → flag = standard
  worded : ∀ text, environment name = some (String.toUTF8 text) → ∀ endsWord, flag = true ↔
    ∃ word ∈ ["true", "1", "yes", "on"],
      Text.Padded word.toList (Text.lowerCase endsWord text.toList)

theorem text?_eq_some_iff :
    environment.text? name = some text ↔ environment name = some text.toUTF8 := by
  rw [text?, Option.bind_eq_some_iff]
  simp only [fromUTF8?_eq_some_iff, exists_eq_right]

theorem spells_iff {value : Nat} : environment.Spells name value ↔
    ∃ text, environment.text? name = some text ∧
      Text.Numeral (Text.trimBlanks text.toList) value := by
  simp only [Spells, text?_eq_some_iff, Text.numeral_trimBlanks_iff, exists_and_left]

theorem read?_eq_some_iff {digits : List Char} {capacity : UInt64} :
    Text.Readable.read? digits = some capacity ↔ Text.Numeral digits capacity.toNat := by
  have hlargest : UInt64.size - 1 < UInt64.size := by decide
  rw [Text.Readable.read?, Text.instReadableUInt64, Option.map_eq_some_iff]
  simp only [Text.readUnsigned?_eq_some_iff]
  constructor
  · rintro ⟨value, ⟨hnumeral, hfits⟩, rfl⟩
    rwa [UInt64.toNat_ofNat_of_lt' (hfits.trans_lt hlargest)]
  · intro hnumeral
    exact ⟨capacity.toNat, ⟨hnumeral, Nat.le_sub_one_of_lt capacity.toNat_lt⟩,
      UInt64.ofNat_toNat⟩

/-- A capacity is found in a variable exactly if it is spelled there. -/
theorem bind_read?_eq_some_iff {capacity : UInt64} :
    ((environment.text? name).bind fun text =>
        Text.Readable.read? (Text.trimBlanks text.toList)) = some capacity ↔
      environment.Spells name capacity.toNat := by
  rw [spells_iff, Option.bind_eq_some_iff]
  simp only [read?_eq_some_iff]

theorem valueOr_of_spells {capacity : UInt64} (hspells : environment.Spells name capacity.toNat) :
    environment.valueOr name fallback = capacity := by
  rw [valueOr, bind_read?_eq_some_iff.mpr hspells, Option.getD_some]

theorem valueOr_of_not_spells
    (hnone : ∀ capacity : UInt64, ¬ environment.Spells name capacity.toNat) :
    environment.valueOr name fallback = fallback := by
  have hunread : ((environment.text? name).bind fun text =>
      (Text.Readable.read? (Text.trimBlanks text.toList) : Option UInt64)) = none :=
    Option.eq_none_iff_forall_ne_some.mpr fun capacity hfound =>
      hnone capacity (bind_read?_eq_some_iff.mp hfound)
  rw [valueOr, hunread, Option.getD_none]

theorem capacityOf_valueOr (environment : Environment) (name : String) (standard : UInt64) :
    CapacityOf environment name standard (environment.valueOr name standard) where
  spelled value hspells hfits := by
    have hvalue : (UInt64.ofNat value).toNat = value := UInt64.toNat_ofNat_of_lt' hfits
    rw [valueOr_of_spells (hvalue.symm ▸ hspells), hvalue]
  otherwise hlarge :=
    valueOr_of_not_spells fun capacity hspells =>
      absurd (hlarge capacity.toNat hspells) (Nat.not_le_of_lt capacity.toNat_lt)

theorem flagOf_flagOr (environment : Environment) (name : String) (standard : Bool) :
    FlagOf environment name standard (environment.flagOr name standard) where
  unset hunset := by
    have hnone : environment.text? name = none :=
      Option.eq_none_iff_forall_ne_some.mpr fun text htext =>
        hunset text (text?_eq_some_iff.mp htext)
    rw [flagOr, hnone]
  worded text htext endsWord := by
    rw [flagOr, text?_eq_some_iff.mpr htext]
    exact isAffirmation_iff endsWord text

end Environment

namespace Settings

variable {σ : Type} [Settings σ]

/-- What is returned for an environment in which some settings stand. -/
structure Returns (environment : Environment) (stem : String) (settings : σ) : Prop where
  error_iff : ∀ fault, (ofEnvironment environment stem : Except Fault σ) = .error fault ↔
    validate settings = .error fault
  ok_iff : ∀ other, (ofEnvironment environment stem : Except Fault σ) = .ok other ↔
    validate settings = .ok () ∧ other = settings

theorem returns_read (environment : Environment) (stem : String) :
    Returns environment stem (read environment stem : σ) where
  error_iff _ := validated_eq_error_iff
  ok_iff _ := validated_eq_ok_iff

end Settings

theorem CacheSettings.validate_eq_error_iff {settings : CacheSettings} {fault : Fault} :
    settings.validate = .error fault ↔
      settings.capacity = 0 ∧ fault = .parameter .zeroCacheCapacity := by
  rw [validate]
  split
  next hzero => simp [hzero, eq_comm]
  next hpositive => simp [hpositive]

theorem MatrixSettings.validate_eq_error_iff {settings : MatrixSettings} {fault : Fault} :
    settings.validate = .error fault ↔
      settings.initialCapacity = 0 ∧ fault = .parameter .zeroMatrixCapacity ∨
        2 ^ 63 - 1 < settings.initialCapacity.toNat ^ 2 ∧
          fault = .parameter (.matrixCapacityOverflows settings.initialCapacity) := by
  rw [← Nat.not_le, ← isNone_cells?_eq_false_iff, Bool.not_eq_false, validate]
  split
  next hzero =>
    have hcells : ¬ (cells? 0).isNone = true := by decide
    rw [hzero, and_iff_right rfl, Except.error.injEq, eq_comm]
    exact (or_iff_left fun hlarge => hcells hlarge.1).symm
  next hpositive =>
    split
    next hlarge => simp [hpositive, hlarge, eq_comm]
    next hsmall => simp [hpositive, hsmall]

/-- The settings of a cache that stand in an environment. -/
structure CacheSettings.StandIn (environment : Environment) (stem : String)
    (settings : CacheSettings) : Prop where
  capacity : environment.CapacityOf (stem ++ "LRU_CAPACITY") standard.capacity settings.capacity
  statistics : environment.FlagOf (stem ++ "LRU_STATISTICS") standard.statisticsEnabled
    settings.statisticsEnabled
  returns : Settings.Returns environment stem settings
  invalid_iff : ∀ fault, settings.validate = .error fault ↔
    settings.capacity = 0 ∧ fault = .parameter .zeroCacheCapacity

/-- The settings of a matrix graph that stand in an environment. -/
structure MatrixSettings.StandIn (environment : Environment) (stem : String)
    (settings : MatrixSettings) : Prop where
  capacity : environment.CapacityOf (stem ++ "MATRIX_CAPACITY") standard.initialCapacity
    settings.initialCapacity
  returns : Settings.Returns environment stem settings
  /-- A graph has at least one cell and at most as many as an object can have bytes. -/
  invalid_iff : ∀ fault, settings.validate = .error fault ↔
    settings.initialCapacity = 0 ∧ fault = .parameter .zeroMatrixCapacity ∨
      2 ^ 63 - 1 < settings.initialCapacity.toNat ^ 2 ∧
        fault = .parameter (.matrixCapacityOverflows settings.initialCapacity)

/-- Whatever an environment holds and whatever the names in it start with, a value that cannot be
read is replaced by the standard one, and a value that can be read is kept even where it makes the
settings invalid. -/
theorem settings_stand_in_environment (environment : Environment) (stem : String) :
    (∃ settings, CacheSettings.StandIn environment stem settings) ∧
      ∃ settings, MatrixSettings.StandIn environment stem settings :=
  ⟨⟨Settings.read environment stem,
      { capacity := Environment.capacityOf_valueOr environment _ _
        statistics := Environment.flagOf_flagOr environment _ _
        returns := Settings.returns_read environment stem
        invalid_iff := fun _ => CacheSettings.validate_eq_error_iff }⟩,
    ⟨Settings.read environment stem,
      { capacity := Environment.capacityOf_valueOr environment _ _
        returns := Settings.returns_read environment stem
        invalid_iff := fun _ => MatrixSettings.validate_eq_error_iff }⟩⟩

end Collections
