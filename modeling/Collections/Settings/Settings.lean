import Collections.Json.Writer
import Collections.Settings.Environment
import Collections.Settings.FilePlace

/-!
# Settings

The tunable parameters of a collection.  They come from a preset, from variables of
the environment or from a file, and they are validated before anything is built
from them.
-/

namespace Collections

class Settings (σ : Type) where
  schema : Json.Schema
  toRecord : σ → Json.Record schema.fields
  ofRecord : Json.Record schema.fields → σ
  validate : σ → Except Fault Unit
  /-- The values that stand where nothing else is said. -/
  standard : σ
  performance : σ
  memory : σ
  /-- The values in an environment, where the names of the variables start with a stem. -/
  read : Environment → String → σ

namespace Settings

/-- The stem of the variables that are read when no other is given. -/
def standardStem : String := "ALTCOLL_"

variable {σ : Type} [Settings σ]

/-- The settings themselves, if they are valid. -/
def validated (settings : σ) : Except Fault σ :=
  match validate settings with
  | .ok _ => .ok settings
  | .error fault => .error fault

/-- The preset between speed and size. -/
def balanced : σ := standard

def ofEnvironment (environment : Environment) (stem : String) : Except Fault σ :=
  validated (read environment stem)

/-- The text of a file that holds the settings. -/
def fileText (settings : σ) : String :=
  Json.writeRecord (schema σ) (toRecord settings)

/-- The settings that a text holds, valid or not. -/
def ofText (text : String) : Except Fault σ :=
  match Json.readRecord (schema σ) text with
  | .ok record => .ok (ofRecord record)
  | .error fault => .error (.configuration (.unreadable fault))

/-- What stands at a place after the settings have been written there. -/
def save (settings : σ) (place : FilePlace) : Except Fault FilePlace :=
  match place.write (fileText settings).toUTF8 with
  | .ok written => .ok written
  | .error fault => .error (.file fault)

/-- The valid settings in the file at a place. -/
def load (place : FilePlace) : Except Fault σ :=
  match place.readText with
  | .ok text =>
    match ofText text with
    | .ok settings => validated settings
    | .error fault => .error fault
  | .error fault => .error (.file fault)

end Settings

end Collections
