import Unbundled.Import.Scan
import Unbundled.Package.Resolve
import Unbundled.Text.Literal

/-! # Rewriting imports

A browser cannot fetch a bare specifier. Each one is replaced by the URL of the file it resolves to,
as a double-quoted literal; one that does not resolve stays as written and is reported with the
reason. Everything else in the source is kept.

Specifiers are taken from the end of the source to its start. The part of the source below the last
replacement (`Pending.floor`) is still untouched then, so the byte offsets of the specifiers that
remain hold. A specifier whose span reaches above that place, or that is no span of the source, is
passed over.

* `Import.rewrite`: rewriting with given specifiers.
* `Import.rewriteSource`: rewriting with the specifiers that the source holds.
-/

namespace Unbundled.Import

/-- The result of rewriting a source. -/
structure Outcome where
  /-- The rewritten source. -/
  code : Text
  /-- The number of specifiers replaced. -/
  rewritten : Nat
  /-- The bare specifiers that do not resolve, with the reasons. -/
  unresolved : List (Text × Package.Fault)
  deriving DecidableEq, Repr

/-- A rewriting under way: the source up to byte `floor` is untouched, and `code` stands for the
rest. -/
structure Pending where
  floor : Nat
  code : Text
  rewritten : Nat
  unresolved : List (Text × Package.Fault)

/-- The parts of a source before, inside and after a span, if it is a span of the source. -/
def spanOf? (source : Text) (start stop : Nat) : Option (Text × Text × Text) :=
  if start ≤ stop then do
    let (upTo, after) ← Text.splitAt? stop source
    let (before, inside) ← Text.splitAt? start upTo
    some (before, inside, after)
  else none

/-- The text between two bytes of a source. -/
def between (source : Text) (start stop : Nat) : Text :=
  match spanOf? source start stop with
  | some (_, inside, _) => inside
  | none => []

/-- Whether a specifier can be replaced next: its literal is a span of the source that ends at or
below the floor. -/
def Pending.admits (source : Text) (p : Pending) (i : Import) : Bool :=
  i.stop ≤ p.floor && (spanOf? source i.start i.stop).isSome

/-- Takes the next specifier, going down. -/
def Pending.take (disk : Disk) (root : Path) (source : Text) (p : Pending) (i : Import) : Pending :=
  if p.admits source i && Specifier.isBare i.raw then
    match Package.resolveUrl disk root i.raw with
    | .ok url =>
      { p with
        floor := i.start
        code := Literal.quote url ++ between source i.stop p.floor ++ p.code
        rewritten := p.rewritten + 1 }
    | .error reason => { p with unresolved := (i.raw, reason) :: p.unresolved }
  else p

/-- The specifiers of a list by descending start; of those that start alike, the first one first. -/
def descending (imports : List Import) : List Import :=
  imports.mergeSort fun i j => decide (j.start ≤ i.start)

/-- **Rewriting with given specifiers.** -/
def rewrite (disk : Disk) (root : Path) (source : Text) (imports : List Import) : Outcome :=
  let last := (descending imports).foldl (Pending.take disk root source)
    ⟨Text.bytes source, [], 0, []⟩
  ⟨between source 0 last.floor ++ last.code, last.rewritten, last.unresolved⟩

/-- **Rewriting a source.** -/
def rewriteSource (disk : Disk) (root : Path) (source : Text) : Outcome :=
  rewrite disk root source (scan source)

end Unbundled.Import
