import Unbundled.Text.Basic

/-! # Release

The name and the version of the program, as it prints them.
-/

namespace Unbundled.Release

def version : Text := "0.1.0".toList

/-- The line that tells name and version. A build may add the revision it was made from. -/
def description (revision : Option Text) : Text :=
  "minivite ".toList ++ version ++
    match revision with
    | some r => " (".toList ++ r ++ [')']
    | none => []

end Unbundled.Release
