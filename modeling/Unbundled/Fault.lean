import Unbundled.Component.Fault
import Unbundled.Disk
import Unbundled.Package.Fault

/-! # Failures

What can go wrong while the server answers a request or starts, and the wording of each failure.
-/

namespace Unbundled

/-- A failure of the server. -/
inductive Fault
  /-- A file cannot be read. -/
  | read (file : Path) (cause : Disk.Fault)
  /-- The configuration file cannot be read. -/
  | configRead (file : Path) (cause : Disk.Fault)
  /-- The configuration file holds no configuration, as the source says. -/
  | configParse (file : Path) (source : Text)
  /-- The project root is not a folder. -/
  | rootNotFound (root : Path)
  /-- An import does not resolve. -/
  | package (fault : Package.Fault)
  /-- A component does not compile. -/
  | component (fault : Component.Fault)
  /-- The file of a request path cannot be transformed. -/
  | transform (path reason : Text)
  deriving DecidableEq, Repr

/-- The wording of a failure. -/
def Fault.message : Fault → Text
  | read file cause => "Failed to read ".toList ++ file.text ++ ": ".toList ++ cause.message
  | configRead file cause =>
    "Failed to read config at ".toList ++ file.text ++ ": ".toList ++ cause.message
  | configParse file source =>
    "Failed to parse config at ".toList ++ file.text ++ ": ".toList ++ source
  | rootNotFound root => "Project root not found: ".toList ++ root.text
  | package fault => fault.message
  | component fault => fault.message
  | transform path reason =>
    "Transform failed for ".toList ++ path ++ ": ".toList ++ reason

end Unbundled
