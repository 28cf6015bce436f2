import Unbundled.Path

/-! # Failures of package resolution

Why a bare specifier has no URL, and the wording of each reason.
-/

namespace Unbundled.Package

/-- Why a bare specifier has no URL. -/
inductive Fault
  /-- There is no package of that name: `manifest` or its folder is missing. -/
  | notFound (name : Text) (manifest : Path)
  /-- The manifest cannot be read, or is none, as the message says. -/
  | badManifest (manifest : Path) (message : Text)
  /-- The package has no such file. -/
  | noEntry (name : Text) (folder : Path)
  /-- The file does not lie below the root. -/
  | outsideRoot (file root : Path)
  deriving DecidableEq, Repr

/-- The wording of a failure. -/
def Fault.message : Fault → Text
  | notFound name manifest =>
    "package `".toList ++ name ++ "` not found (no ".toList ++ manifest.text ++ ")".toList
  | badManifest manifest message =>
    "invalid package manifest ".toList ++ manifest.text ++ ": ".toList ++ message
  | noEntry name folder =>
    "entry file for `".toList ++ name ++ "` not found in ".toList ++ folder.text
  | outsideRoot file root =>
    file.text ++ " lies outside the project root ".toList ++ root.text

end Unbundled.Package
