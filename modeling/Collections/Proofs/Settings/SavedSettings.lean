import Mathlib
import Collections.Settings.Cache
import Collections.Settings.Matrix
import Collections.Proofs.Json.RecordRoundTrip

/-!
# Saved settings

Settings that are saved and loaded again come back as they were if they are valid, and otherwise
loading reports what is wrong with them.  Whatever a file holds, only valid settings are loaded
from it.
-/

namespace Collections

theorem fromUTF8?_toUTF8 (text : String) : String.fromUTF8? text.toUTF8 = some text := by
  rw [String.fromUTF8?, String.toUTF8_eq_toByteArray, dif_pos text.isValidUTF8]
  rfl

namespace Settings

variable {σ : Type} [Settings σ]

/-- Settings that are told apart by their records, whose fields can be written without escapes,
and that are refused for their parameters only. -/
class Lawful (σ : Type) [Settings σ] : Prop where
  ofRecord_toRecord : ∀ settings : σ, ofRecord (toRecord settings) = settings
  plainNames : Json.PlainNames (schema σ).fields
  distinctNames : Json.DistinctNames (schema σ).fields
  parameter : ∀ (settings : σ) fault, validate settings = .error fault →
    ∃ cause, fault = .parameter cause

/-- What loading settings gives that were saved before, and what it never gives. -/
structure Reloads (σ : Type) [Settings σ] : Prop where
  /-- There is a file afterwards wherever one can be written. -/
  saves : ∀ (settings : σ) place, place = .vacant ∨ (∃ content, place = .file content) →
    ∃ written, save settings place = .ok written
  returned : ∀ (settings : σ) place written, save settings place = .ok written →
    validate settings = .ok () → load written = .ok settings
  refused : ∀ (settings : σ) place written fault, save settings place = .ok written →
    validate settings = .error fault →
      (load written : Except Fault σ) = .error fault ∧ ∃ cause, fault = .parameter cause
  /-- Whatever the content of a file is. -/
  loads_valid : ∀ place (settings : σ), load place = .ok settings → validate settings = .ok ()

theorem ofText_fileText [Lawful σ] (settings : σ) : ofText (fileText settings) = .ok settings := by
  rw [ofText, fileText,
    Json.readRecord_writeRecord Lawful.plainNames Lawful.distinctNames (toRecord settings)]
  exact congrArg Except.ok (Lawful.ofRecord_toRecord settings)

theorem save_eq_ok {settings : σ} {place written : FilePlace}
    (hsave : save settings place = .ok written) :
    written = .file (fileText settings).toUTF8 := by
  cases place with
  | unreachable => exact absurd hsave (by simp [save, FilePlace.write])
  | directory => exact absurd hsave (by simp [save, FilePlace.write])
  | vacant => exact (Except.ok.inj hsave).symm
  | file content => exact (Except.ok.inj hsave).symm

/-- What was saved is loaded if it is valid. -/
theorem load_of_save [Lawful σ] {settings : σ} {place written : FilePlace}
    (hsave : save settings place = .ok written) : load written = validated settings := by
  rw [save_eq_ok hsave, load, FilePlace.readText, FilePlace.read]
  dsimp only
  rw [fromUTF8?_toUTF8]
  dsimp only
  rw [ofText_fileText]

theorem validated_eq_ok_iff {settings other : σ} :
    validated settings = .ok other ↔ validate settings = .ok () ∧ other = settings := by
  rw [validated]
  cases validate settings with
  | ok checked => simp [eq_comm]
  | error fault => simp

theorem validated_eq_error_iff {settings : σ} {fault : Fault} :
    validated settings = .error fault ↔ validate settings = .error fault := by
  rw [validated]
  cases validate settings with
  | ok checked => simp
  | error found => simp

theorem validate_of_load {place : FilePlace} {settings : σ} (hload : load place = .ok settings) :
    validate settings = .ok () := by
  rw [load] at hload
  split at hload
  next text htext =>
    split at hload
    next found hfound =>
      obtain ⟨hvalid, rfl⟩ := validated_eq_ok_iff.mp hload
      exact hvalid
    next fault hfault => exact absurd hload (by simp)
  next fault hfault => exact absurd hload (by simp)

theorem reloads [Lawful σ] : Reloads σ where
  saves settings place hplace := by
    rcases hplace with rfl | ⟨content, rfl⟩
    · exact ⟨_, rfl⟩
    · exact ⟨_, rfl⟩
  returned settings place written hsave hvalid := by
    rw [load_of_save hsave]
    exact validated_eq_ok_iff.mpr ⟨hvalid, rfl⟩
  refused settings place written fault hsave hfault := by
    rw [load_of_save hsave]
    exact ⟨validated_eq_error_iff.mpr hfault, Lawful.parameter settings fault hfault⟩
  loads_valid place settings hload := validate_of_load hload

end Settings

instance : Settings.Lawful CacheSettings where
  ofRecord_toRecord settings := rfl
  plainNames := by
    simp only [Json.PlainNames, Settings.schema, CacheSettings.schema, List.mem_cons,
      List.not_mem_nil, or_false, forall_eq_or_imp, forall_eq, String.reduceToList]
    decide
  distinctNames := by decide
  parameter settings fault hfault := by
    change settings.validate = _ at hfault
    rw [CacheSettings.validate] at hfault
    split at hfault
    · exact ⟨_, (Except.error.inj hfault).symm⟩
    · exact absurd hfault (by simp)

instance : Settings.Lawful MatrixSettings where
  ofRecord_toRecord settings := rfl
  plainNames := by
    simp only [Json.PlainNames, Settings.schema, MatrixSettings.schema, List.mem_cons,
      List.not_mem_nil, or_false, forall_eq_or_imp, forall_eq, String.reduceToList]
    decide
  distinctNames := by decide
  parameter settings fault hfault := by
    change settings.validate = _ at hfault
    rw [MatrixSettings.validate] at hfault
    split at hfault
    · exact ⟨_, (Except.error.inj hfault).symm⟩
    · split at hfault
      · exact ⟨_, (Except.error.inj hfault).symm⟩
      · exact absurd hfault (by simp)

/-- Both kinds of settings are reloaded as they were saved, and never loaded invalid. -/
theorem saved_settings_reload : Settings.Reloads CacheSettings ∧ Settings.Reloads MatrixSettings :=
  ⟨Settings.reloads, Settings.reloads⟩

/-- A matrix without cells can be saved, and is refused when it is loaded. -/
theorem saved_settings_reload_zeroCapacity :
    ∃ written, Settings.save (⟨0⟩ : MatrixSettings) .vacant = .ok written ∧
      (Settings.load written : Except Fault MatrixSettings) =
        .error (.parameter .zeroMatrixCapacity) := by
  obtain ⟨-, hmatrix⟩ := saved_settings_reload
  obtain ⟨written, hsave⟩ := hmatrix.saves ⟨0⟩ .vacant (Or.inl rfl)
  exact ⟨written, hsave, (hmatrix.refused ⟨0⟩ .vacant written _ hsave rfl).1⟩

end Collections
