import Unbundled.Text.Basic

/-! # Paths

A path is a text. It is kept as it was written, and compared by its steps: repeated slashes, a
slash at the end, and dots that stand for a directory itself fall away, except for a dot at the
front.

* `steps`: what a path says, step by step.
* `join`: a path below another one, unless it is absolute.
* `below?`: the steps of a path that follow those of a directory.
-/

namespace Unbundled

/-- A path, as written. -/
structure Path where
  text : Text
  deriving DecidableEq, Repr

/-- A step of a path. -/
inductive Path.Step
  /-- The slash that an absolute path starts with. -/
  | root
  /-- A dot at the front of a relative path. -/
  | here
  /-- Two dots. -/
  | up
  /-- A name. -/
  | name (n : Text)
  deriving DecidableEq, Repr

namespace Path

/-- The parts of a path between slashes. -/
def segments (p : Path) : List Text := p.text.splitOn '/'

/-- Whether a segment adds no step to a path. -/
def isIdle (s : Text) : Bool := s.isEmpty || s == ['.']

/-- The step that a segment stands for. -/
def stepOf (s : Text) : Step := if s = ['.', '.'] then .up else .name s

/-- Whether a path starts at the root of the file system. -/
def isAbsolute (p : Path) : Bool := p.text.head? == some '/'

/-- The steps of a path. -/
def steps (p : Path) : List Step :=
  match p.segments with
  | [] => []
  | first :: rest =>
    let front :=
      if p.isAbsolute then [Step.root]
      else if first.isEmpty then []
      else if first = ['.'] then [Step.here]
      else [stepOf first]
    front ++ (rest.filter fun s => !isIdle s).map stepOf

/-- The path `q`, taken from the directory `p`. -/
def join (p : Path) (q : Text) : Path :=
  if q.head? = some '/' then ⟨q⟩
  else if p.text.isEmpty || p.text.getLast? == some '/' then ⟨p.text ++ q⟩
  else ⟨p.text ++ '/' :: q⟩

/-- The last step, if it is a name. -/
def fileName? (p : Path) : Option Text :=
  match p.steps.getLast? with
  | some (.name n) => some n
  | _ => none

/-- The part of the file name after its last dot. A dot at the front starts no extension. -/
def extension? (p : Path) : Option Text := do
  let name ← p.fileName?
  let after := name.reverse.takeWhile (· ≠ '.')
  let stem := (name.reverse.drop (after.length + 1))
  if stem.isEmpty then none else some after.reverse

/-- The directory that a path lies in: the path without its last step, and without what adds no step
before it. The root and the empty path lie in none. -/
def parent? (p : Path) : Option Path :=
  match p.segments with
  | [] => none
  | first :: rest =>
    match rest.reverse.dropWhile isIdle with
    | [] => if first.isEmpty then none else some ⟨[]⟩
    | _ :: before =>
      let kept := (before.dropWhile isIdle).reverse
      if first.isEmpty && kept.isEmpty then some ⟨['/']⟩
      else some ⟨['/'].intercalate (first :: kept)⟩

/-- The steps of `p` after those of the directory `dir`, if `p` starts with them. -/
def below? (p dir : Path) : Option (List Step) := dir.steps.isPrefixOf? p.steps

end Path

end Unbundled
