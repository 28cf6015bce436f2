import Unbundled.Component.Module
import Unbundled.Fault

/-! # Compiling component files

Reads a component from the disk and makes its module. The module carries the path that the browser
asked for, as its file name and in its id.
-/

namespace Unbundled.Component

/-- The module of a component on the disk, as the answer to a request path. -/
def compileFile (disk : Disk) (file : Path) (requestPath : Text) : Except Unbundled.Fault Text :=
  match disk.readText file with
  | .error cause => .error (.read file cause)
  | .ok source => (assemble requestPath (idOf requestPath) source).mapError .component

end Unbundled.Component
