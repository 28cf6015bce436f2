import Unbundled.Json.Reader
import Unbundled.Text.Blank

/-! # Package manifests

Of a package manifest only the entry files count: the one for browsers (`module`) and the general one
(`main`). Members with other names are passed over, whatever they hold. A manifest may also be an
array of the two, in that order.

* `Manifest.parse?`: the manifest that a JSON text holds.
* `Manifest.entry`: the file that a package is entered by.
-/

namespace Unbundled

/-- What a package manifest says about entry files. -/
structure Manifest where
  module : Option Text
  main : Option Text
  deriving DecidableEq, Repr

namespace Manifest

/-- The entry file of a manifest that names none. -/
def defaultEntry : Text := "index.js".toList

/-- The manifest that a JSON value holds. -/
def ofJson? : Json → Option Manifest
  | .object members => do
    let fields ← Json.fields? members
    let module ← Json.field? "module".toList fields
    let main ← Json.field? "main".toList fields
    some ⟨← Json.optional Json.text? module, ← Json.optional Json.text? main⟩
  | .array items =>
    match items with
    | [] => some ⟨none, none⟩
    | [module] => do some ⟨← Json.optional Json.text? module, none⟩
    | [module, main] => do
      some ⟨← Json.optional Json.text? module, ← Json.optional Json.text? main⟩
    | _ => none
  | _ => none

/-- The manifest that a JSON text holds. -/
def parse? (content : Text) : Option Manifest := (Json.read? content).bind ofJson?

/-- Whether a value names a file: a blank one does not. -/
def isNamed (entry : Text) : Bool := !entry.all Text.isBlank

/-- The file that a package is entered by: the first one named. -/
def entry (m : Manifest) : Text :=
  ([m.module, m.main].filterMap id |>.find? isNamed).getD defaultEntry

end Manifest

end Unbundled
