import Unbundled.Path
import Unbundled.Text.Utf8

/-! # Disk

The files that the server works on, as a value: a tree of folders and the folder that relative paths
start from. A path is looked up step by step. Every step but the last one has to be a folder, two
dots lead to the folder above, and the folder above the top is the top itself.

Every file of a disk can be read. Files that the system keeps from being read are left out, as links
are: a read fails where there is no file, and as text where the content is no text. So a disk never
gives `Fault.other`, which stages may pass on all the same, and what the standard stages do about a
file that is there and cannot be read is never done.

What is read as JSON is read by a library. It is outside of the program as the files are, and what it
says of a text that it refuses is left open (`Library`).

* `Node.at?`: what lies at a place, given by its names from the top.
* `Disk.locate`: the place that a path leads to.
* `Disk.isFile`, `Disk.isFolder`, `Disk.read`, `Disk.readText`: what can be asked about a path.
* `Disk.put`, `Disk.remove`: a changed disk.
-/

namespace Unbundled

/-- A file or a folder. -/
inductive Node
  | file (content : Bytes)
  | folder (entries : List (Text × Node))

namespace Node

/-- The entry of a folder with a given name. -/
def entry? (n : Text) : Node → Option Node
  | file _ => none
  | folder entries => entries.lookup n

/-- What lies at the end of a list of names. -/
def at? : Node → List Text → Option Node
  | node, [] => some node
  | node, n :: names => (node.entry? n).bind (·.at? names)

/-- Whether a node is a folder. -/
def isFolder : Node → Bool
  | file _ => false
  | folder _ => true

/-- The entries of a folder; a file has none. -/
def entries : Node → List (Text × Node)
  | file _ => []
  | folder entries => entries

/-- The entries with one of them replaced, or with a new one at the end. -/
def setEntry (n : Text) (node : Node) : List (Text × Node) → List (Text × Node)
  | [] => [(n, node)]
  | (m, old) :: rest => if m = n then (n, node) :: rest else (m, old) :: setEntry n node rest

/-- The tree with a node put at the end of a list of names. Folders on the way are made, and a folder
that is there already is kept where a folder is put. -/
def put (new : Node) : Node → List Text → Node
  | old, [] => if new.isFolder && old.isFolder then old else new
  | old, n :: names =>
    folder (setEntry n (put new ((old.entry? n).getD (folder [])) names) old.entries)

/-- The tree without what lies at the end of a list of names. -/
def remove : Node → List Text → Node
  | old, [] => old
  | old, [n] =>
    match old with
    | file content => file content
    | folder entries => folder (entries.filter fun (m, _) => m != n)
  | old, n :: names =>
    match old.entry? n with
    | none => old
    | some child => folder (setEntry n (remove child names) old.entries)

end Node

/-- What the JSON library says of a text that it refuses. -/
structure Library where
  /-- What it says of a text that is no package manifest. -/
  manifest : Text → Text
  /-- What it says of a text that is no configuration. -/
  config : Text → Text

/-- A library without words, for a disk on which it refuses nothing. -/
def Library.silent : Library := ⟨fun _ => [], fun _ => []⟩

/-- A tree of files, the names that lead to the working folder, and the words of the JSON library. There
is no file in it that cannot be read: such files are left out. -/
structure Disk where
  top : Node
  workingFolder : List Text
  library : Library

namespace Disk

/-- Why the disk does not give what is asked for. -/
inductive Fault
  | notFound
  | notFolder
  | isFolder
  | nameTooLong
  /-- The path holds a NUL character. -/
  | nulInName
  /-- The content is not UTF-8. -/
  | notText
  /-- Another reason, in the words of the system. No disk gives one. -/
  | other (reason : Text)
  deriving DecidableEq, Repr

/-- The wording of a fault. -/
def Fault.message : Fault → Text
  | notFound => "No such file or directory (os error 2)".toList
  | notFolder => "Not a directory (os error 20)".toList
  | isFolder => "Is a directory (os error 21)".toList
  | nameTooLong => "File name too long (os error 36)".toList
  | nulInName => "file name contained an unexpected NUL byte".toList
  | notText => "stream did not contain valid UTF-8".toList
  | other reason => reason

/-- The longest name of an entry, in bytes. -/
def maxName : Nat := 255

/-- The longest path, in bytes. -/
def maxPath : Nat := 4095

/-- The place that segments of a path lead to from another place. -/
def walk (top : Node) : List Text → List Text → Except Fault (List Text)
  | place, [] => .ok place
  | place, s :: rest =>
    match top.at? place with
    | none => .error .notFound
    | some (.file _) => .error .notFolder
    | some (.folder entries) =>
      if Path.isIdle s then walk top place rest
      else if s = ['.', '.'] then walk top place.dropLast rest
      else if maxName < Text.bytes s then .error .nameTooLong
      else if (entries.lookup s).isNone then .error .notFound
      else walk top (place ++ [s]) rest

/-- The place that a path leads to, found name by name, however long the path is. -/
def trace (disk : Disk) (p : Path) : Except Fault (List Text) :=
  if p.text.contains '\x00' then .error .nulInName
  else if p.text.isEmpty then .error .notFound
  else walk disk.top (if p.isAbsolute then [] else disk.workingFolder) p.segments

/-- The place that a path leads to. A path of more than `maxPath` bytes is not taken as a whole. -/
def locate (disk : Disk) (p : Path) : Except Fault (List Text) :=
  if maxPath < Text.bytes p.text && !p.text.contains '\x00' then .error .nameTooLong
  else disk.trace p

/-- What a path leads to. -/
def node (disk : Disk) (p : Path) : Except Fault Node :=
  (disk.locate p).bind fun place =>
    match disk.top.at? place with
    | some n => .ok n
    | none => .error .notFound

/-- Whether a path leads to a file. -/
def isFile (disk : Disk) (p : Path) : Bool :=
  match disk.node p with
  | .ok (.file _) => true
  | _ => false

/-- Whether a path leads to a folder. -/
def isFolder (disk : Disk) (p : Path) : Bool :=
  match disk.node p with
  | .ok (.folder _) => true
  | _ => false

/-- The content of a file. -/
def read (disk : Disk) (p : Path) : Except Fault Bytes :=
  match disk.node p with
  | .ok (.file content) => .ok content
  | .ok (.folder _) => .error .isFolder
  | .error fault => .error fault

/-- The content of a text file. -/
def readText (disk : Disk) (p : Path) : Except Fault Text :=
  (disk.read p).bind fun content => (Utf8.decode content).mapError fun _ => .notText

/-- The absolute path of a place. -/
def pathOf (place : List Text) : Path := ⟨if place.isEmpty then ['/'] else place.flatMap ('/' :: ·)⟩

/-- The absolute form of a path that leads somewhere, without dots and repeated slashes. Only the
length of this form is limited, not that of the path. -/
def canonical (disk : Disk) (p : Path) : Except Fault Path :=
  (disk.trace p).bind fun place =>
    if maxPath < Text.bytes (pathOf place).text then .error .nameTooLong else .ok (pathOf place)

/-! ### Changes -/

/-- The place that a path names, whether or not something lies there. -/
def target (disk : Disk) (p : Path) : List Text :=
  p.segments.foldl
    (fun place s =>
      if Path.isIdle s then place else if s = ['.', '.'] then place.dropLast else place ++ [s])
    (if p.isAbsolute then [] else disk.workingFolder)

/-- The disk with a file or folder put at a path. -/
def put (disk : Disk) (p : Path) (new : Node) : Disk :=
  { disk with top := Node.put new disk.top (disk.target p) }

/-- The disk without what lies at a path. -/
def remove (disk : Disk) (p : Path) : Disk :=
  { disk with top := disk.top.remove (disk.target p) }

end Disk

end Unbundled
