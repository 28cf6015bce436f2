import Unbundled.Package.Fault
import Unbundled.Text.Percent

/-! # URLs and files

The URL of a file is its path below the project root. The file of a URL path is found by decoding the
percent escapes and walking down from the root; a segment that would lead elsewhere has no file.

* `Url.ofPath`: the URL of a file.
* `Url.toPath?`: the file of a URL.
-/

namespace Unbundled.Url

/-- The URL that names along a path make. -/
def ofNames (names : List Text) : Text :=
  if names.isEmpty then ['/'] else names.flatMap ('/' :: ·)

/-- The names among steps, if there are only names and dots. -/
def names? : List Path.Step → Option (List Text)
  | [] => some []
  | .name n :: rest => (names? rest).map (n :: ·)
  | .here :: rest => names? rest
  | _ => none

/-- The URL of a file below the root. -/
def ofPath (root file : Path) : Except Package.Fault Text :=
  match (file.below? root).bind names? with
  | some names => .ok (ofNames names)
  | none => .error (.outsideRoot file root)

/-- A URL without its query and its fragment. -/
def pathPart (url : Text) : Text := url.takeWhile fun c => c ≠ '?' && c ≠ '#'

/-- Whether a segment leads nowhere that a URL may lead: up, or to a name that another system would
read otherwise. -/
def isForbidden (s : Text) : Bool := s == ['.', '.'] || s.contains '\\' || s.contains '\x00'

/-- The file of a URL path below the root. -/
def toPath? (root : Path) (url : Text) : Option Path :=
  match Utf8.decode (Percent.decode (pathPart url)) with
  | .ok ('/' :: decoded) =>
    let segments := (decoded.splitOn '/').filter fun s => !Path.isIdle s
    if segments.any isForbidden then none else some (segments.foldl Path.join root)
  | _ => none

end Unbundled.Url
