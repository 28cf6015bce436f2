import Unbundled.Text.Basic

/-! # Module specifiers

A specifier is what an import names. One that starts with a slash or with a dot segment is fetched
by the browser as written; any other one is *bare* and names a package, perhaps with a file inside
it. The name of a package has one part, or two if it starts with an at sign.

* `form`: the form of a specifier.
* `splitBare`: the package name of a bare specifier, and what follows it.
-/

namespace Unbundled.Specifier

/-- The forms of a specifier. -/
inductive Form
  | relative
  | absolute
  | bare
  deriving DecidableEq, Repr

/-- The form of a specifier. -/
def form (spec : Text) : Form :=
  if "./".toList.isPrefixOf spec || "../".toList.isPrefixOf spec then .relative
  else if spec.head? = some '/' then .absolute
  else .bare

/-- Whether a specifier names a package. -/
def isBare (spec : Text) : Bool := form spec == .bare

/-- The text itself, unless it is empty. -/
def nonEmpty? (t : Text) : Option Text := if t.isEmpty then none else some t

/-- The package name of a bare specifier, and the path inside the package, if one follows. -/
def splitBare (spec : Text) : Text × Option Text :=
  match Text.cut? ['/'] spec with
  | none => (spec, none)
  | some (first, rest) =>
    if spec.head? = some '@' then
      match Text.cut? ['/'] rest with
      | none => (spec, none)
      | some (second, rest) => (first ++ '/' :: second, nonEmpty? rest)
    else (first, nonEmpty? rest)

end Unbundled.Specifier
