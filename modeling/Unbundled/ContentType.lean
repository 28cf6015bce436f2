import Unbundled.Path
import Unbundled.Text.Blank

/-! # Content types

The content type of a file is given by its extension, in either case. A file with no extension, or
with one that is not listed, is a sequence of bytes without further meaning.
-/

namespace Unbundled.ContentType

def javascript : Text := "application/javascript".toList
def html : Text := "text/html".toList
def plainText : Text := "text/plain".toList
def bytes : Text := "application/octet-stream".toList

/-- The known extensions with their content types. -/
def known : List (Text × Text) :=
  [("html".toList, html), ("js".toList, javascript), ("css".toList, "text/css".toList),
    ("json".toList, "application/json".toList), ("png".toList, "image/png".toList),
    ("jpg".toList, "image/jpeg".toList), ("jpeg".toList, "image/jpeg".toList),
    ("gif".toList, "image/gif".toList), ("svg".toList, "image/svg+xml".toList),
    ("ico".toList, "image/x-icon".toList)]

/-- The content type of a file. -/
def ofPath (file : Path) : Text :=
  match file.extension? with
  | none => bytes
  | some extension =>
    match known.find? fun (name, _) => Text.sameIgnoringCase name extension with
    | some (_, type) => type
    | none => bytes

/-- Whether a content type means an HTML document, whatever its parameters. -/
def isHtml (type : Text) : Bool :=
  Text.sameIgnoringCase (Text.trim (type.takeWhile (· ≠ ';'))) html

end Unbundled.ContentType
