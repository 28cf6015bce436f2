import Unbundled.Fault

/-! # Settings of the server

* `Settings`: where the server listens, and what it serves.
* `Settings.locateRoot`: the settings with an absolute root, if the root is a folder.
-/

namespace Unbundled

/-- The settings of the server. -/
structure Settings where
  port : UInt16
  host : Text
  /-- The project root: every request path lies below it. -/
  root : Path
  /-- Whether bare imports of compiled components are rewritten too. -/
  rewriteComponentImports : Bool
  deriving DecidableEq, Repr

namespace Settings

def defaultPort : UInt16 := 3000

def defaultHost : Text := "localhost".toList

/-- The default settings for a root. -/
def ofRoot (root : Path) : Settings := ⟨defaultPort, defaultHost, root, false⟩

/-- Host and port, as one text. -/
def address (s : Settings) : Text := s.host ++ ':' :: Text.ofNat s.port.toNat

/-- The settings with the absolute form of their root. It has to be a folder. -/
def locateRoot (disk : Disk) (s : Settings) : Except Fault Settings :=
  match disk.canonical s.root with
  | .error _ => .error (.rootNotFound s.root)
  | .ok root =>
    if disk.isFolder root then .ok { s with root := root } else .error (.rootNotFound root)

end Settings

end Unbundled
