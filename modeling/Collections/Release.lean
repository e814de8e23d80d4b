import Collections.Step

/-!
# Release

The version of the library and what it logs when it is started.
-/

namespace Collections.Release

def version : String := "0.1.0"

def startLog : List LogEvent := [.initializing version]

end Collections.Release
