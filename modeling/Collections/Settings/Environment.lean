import Collections.Text.Blank
import Collections.Text.Readable

/-!
# Environments

Named variables whose values are bytes.  A value that is not text counts as unset,
and so does one that cannot be read as what is asked for.
-/

namespace Collections

universe u

/-- The bytes of each variable that is set. -/
abbrev Environment := String → Option ByteArray

namespace Environment

def empty : Environment := fun _ => none

/-- The environment in which one variable is set besides. -/
def set (environment : Environment) (name : String) (value : ByteArray) : Environment :=
  fun wanted => if wanted = name then some value else environment wanted

/-- The text of a variable, if it is set to one. -/
def text? (environment : Environment) (name : String) : Option String :=
  (environment name).bind String.fromUTF8?

/-- The value of a variable without the blanks around it, or else the fallback. -/
def valueOr {α : Type u} [Text.Readable α] (environment : Environment) (name : String)
    (fallback : α) : α :=
  ((environment.text? name).bind fun text =>
    Text.Readable.read? (Text.trimBlanks text.toList)).getD fallback

/-- The words that switch a flag on, in lower case. -/
def affirmations : List String := ["true", "1", "yes", "on"]

/-- Whether a text, whatever its case and the blanks around it, switches a flag on.
Only Latin letters need a change of case, as no other character has one of these
letters for its lower case. -/
def isAffirmation (text : String) : Bool :=
  affirmations.contains (Text.trim (text.map Char.toLower))

/-- A flag: the fallback if the variable is unset, and off for all other words. -/
def flagOr (environment : Environment) (name : String) (fallback : Bool) : Bool :=
  match environment.text? name with
  | some text => isAffirmation text
  | none => fallback

end Environment

end Collections
