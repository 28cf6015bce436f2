import Unbundled.Disk
import Unbundled.Package.Manifest
import Unbundled.Package.Specifier
import Unbundled.Url

/-! # Package resolution

Bare specifiers are looked up in the folder `node_modules` of the project root, anew for each request.
A package name alone leads to the entry file of the package, as its manifest says. A name with a path
leads to that file inside the package, with or without its extension written.

* `Package.resolve`: the file of a bare specifier.
* `Package.resolveUrl`: the URL that the browser is to fetch for it.
-/

namespace Unbundled.Package

/-- The folder that holds the packages. -/
def storeFolder : Text := "node_modules".toList

/-- The file name of a manifest. -/
def manifestFile : Text := "package.json".toList

/-- The extension that a path inside a package may leave out. -/
def scriptExtension : Text := ".js".toList

/-- The manifest at a path. -/
def readManifest (disk : Disk) (file : Path) : Except Fault Manifest :=
  match disk.readText file with
  | .error cause => .error (.badManifest file cause.message)
  | .ok content =>
    match Manifest.parse? content with
    | none => .error (.badManifest file (disk.library.manifest content))
    | some manifest => .ok manifest

/-- A path without the dot segments at its front. -/
def dropDots : Text → Text
  | '.' :: '/' :: t => dropDots t
  | t => t

/-- The first file among some paths. -/
def firstFile? (disk : Disk) (files : List Path) : Option Path := files.find? disk.isFile

/-- The file at a path inside a package. -/
def resolveInside (disk : Disk) (name : Text) (folder : Path) (inside : Text) :
    Except Fault Path :=
  let file := folder.join inside
  match firstFile? disk [file, ⟨file.text ++ scriptExtension⟩] with
  | some file => .ok file
  | none => .error (.noEntry (name ++ '/' :: inside) folder)

/-- The entry file of a package. -/
def resolveEntry (disk : Disk) (name : Text) (folder manifestPath : Path) : Except Fault Path := do
  let manifest ← readManifest disk manifestPath
  let entry := folder.join (dropDots manifest.entry)
  match firstFile? disk [entry, folder.join Manifest.defaultEntry] with
  | some file => .ok file
  | none => .error (.noEntry name folder)

/-- **The file of a bare specifier.** -/
def resolve (disk : Disk) (root : Path) (spec : Text) : Except Fault Path :=
  let (name, inside) := Specifier.splitBare spec
  let folder := (root.join storeFolder).join name
  let manifestPath := folder.join manifestFile
  match inside with
  | some inside =>
    if disk.isFolder folder then resolveInside disk name folder inside
    else .error (.notFound name manifestPath)
  | none =>
    if disk.isFile manifestPath then resolveEntry disk name folder manifestPath
    else .error (.notFound name manifestPath)

/-- The URL of a bare specifier. -/
def resolveUrl (disk : Disk) (root : Path) (spec : Text) : Except Fault Text :=
  (resolve disk root spec).bind (Url.ofPath root)

end Unbundled.Package
