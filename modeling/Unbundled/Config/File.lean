import Unbundled.Config.Settings
import Unbundled.Json.Reader

/-! # The configuration file

A configuration file is a JSON object with the members `port`, `host`, `root` and
`rewriteComponentImports`, none of which is needed and beside which there may be no others. It may
also be an array of the four, in that order.

* `ConfigFile.parse?`: what a JSON text sets.
* `ConfigFile.overlay`: settings with those of a file laid over them.
-/

namespace Unbundled

/-- What a configuration file sets. -/
structure ConfigFile where
  port : Option UInt16
  host : Option Text
  root : Option Text
  rewriteComponentImports : Option Bool
  deriving DecidableEq, Repr

namespace ConfigFile

/-- The name under which a configuration file is looked for. -/
def fileName : Text := "minivite.config.json".toList

/-- The members that a configuration may have. -/
def memberNames : List Text :=
  ["port", "host", "root", "rewriteComponentImports"].map String.toList

/-- The port that a JSON value holds: a number without sign, fraction and exponent. -/
def port? : Json → Option UInt16
  | .number digits =>
    (Text.nat? digits).bind fun n => if n < 65536 then some (UInt16.ofNat n) else none
  | _ => none

/-- The configuration of four values. -/
def ofValues? (port host root rewriteComponentImports : Json) : Option ConfigFile := do
  some ⟨← Json.optional port? port, ← Json.optional Json.text? host,
    ← Json.optional Json.text? root, ← Json.optional Json.bool? rewriteComponentImports⟩

/-- The configuration that a JSON value holds. -/
def ofJson? : Json → Option ConfigFile
  | .object members => do
    let fields ← Json.fields? members
    if fields.all fun (name, _) => memberNames.contains name then
      ofValues? (← Json.field? "port".toList fields) (← Json.field? "host".toList fields)
        (← Json.field? "root".toList fields)
        (← Json.field? "rewriteComponentImports".toList fields)
    else none
  | .array [port, host, root, rewriteComponentImports] =>
    ofValues? port host root rewriteComponentImports
  | _ => none

/-- The configuration that a JSON text holds. -/
def parse? (content : Text) : Option ConfigFile := (Json.read? content).bind ofJson?

/-- The configuration in a file. -/
def load (disk : Disk) (file : Path) : Except Fault ConfigFile :=
  match disk.readText file with
  | .error cause => .error (.configRead file cause)
  | .ok content =>
    match parse? content with
    | none => .error (.configParse file (disk.library.config content))
    | some config => .ok config

/-- Settings with those of a file in the folder `base` laid over them. A root in the file is taken
from that folder. -/
def overlay (config : ConfigFile) (base : Path) (s : Settings) : Settings where
  port := config.port.getD s.port
  host := config.host.getD s.host
  root := (config.root.map base.join).getD s.root
  rewriteComponentImports := config.rewriteComponentImports.getD s.rewriteComponentImports

end ConfigFile

end Unbundled
