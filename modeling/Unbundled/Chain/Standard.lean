import Unbundled.Chain.Stage
import Unbundled.Component.Compile
import Unbundled.Import.Rewrite
import Unbundled.Reload

/-! # The standard chain

The server answers with the chain that `standard` lists. The stages that serve files defer to the
next one unless the path ends as they expect and leads to a file:

* `componentStage` compiles components;
* `scriptStage` rewrites the imports of scripts;
* `staticStage` serves any other file as it is, and a folder through its index page.

In front of them, `htmlStage` adds the reload client to pages, and `boundary` turns failures into
answers.
-/

namespace Unbundled

variable {σ : Type}

/-- What the standard stages are told. -/
structure ChainSettings where
  root : Path
  rewriteComponentImports : Bool
  deriving DecidableEq, Repr

/-- The file that a request path leads to, if it does. -/
def requestedFile? (disk : Disk) (root : Path) (path : Text) : Option Path :=
  match Url.toPath? root path with
  | some file => if disk.isFile file then some file else none
  | none => none

/-! ### Pages -/

/-- A page body with the reload client. Bytes that are no text are left as they are. -/
def injectBody : Body → Body
  | .text page => .text (Reload.inject page)
  | .raw content =>
    match Utf8.decode content with
    | .ok page => .text (Reload.inject page)
    | .error _ => .raw content

/-- The context with the reload client in its body, if that is a page. -/
def injectClient (c : Context) : Context :=
  if c.contentType.any ContentType.isHtml then { c with body := c.body.map injectBody } else c

/-- The stage that adds the reload client to pages. -/
def htmlStage : Stage σ where
  name := "html-injection".toList
  handle next c log :=
    let out := next c log
    match out.finish with
    | .done => { out with context := injectClient out.context }
    | _ => out

/-! ### Components -/

/-- The end of the paths of components. -/
def componentSuffix : Text := ".vue".toList

/-- The answer to a request for a component. -/
def answerComponent (disk : Disk) (settings : ChainSettings) (file : Path) (c : Context) : Context :=
  match Component.compileFile disk file c.path with
  | .ok code =>
    c.respond ContentType.javascript <| .text <|
      if settings.rewriteComponentImports then
        (Import.rewriteSource disk settings.root code).code
      else code
  | .error fault =>
    c.fail 500 ContentType.javascript (Component.failureModule fault.message)

/-- The stage that compiles components. -/
def componentStage (disk : Disk) (settings : ChainSettings) : Stage σ where
  name := "component".toList
  handle next c log :=
    if Text.endsWith c.path componentSuffix then
      match requestedFile? disk settings.root c.path with
      | some file => ⟨.done, answerComponent disk settings file c, log⟩
      | none => next c log
    else next c log

/-! ### Scripts -/

/-- The ends of the paths of scripts. -/
def scriptSuffixes : List Text := [".js", ".mjs"].map String.toList

/-- The text of a script. -/
def readScript (disk : Disk) (file : Path) (path : Text) : Except Fault Text :=
  match disk.read file with
  | .error cause => .error (.read file cause)
  | .ok content =>
    match Utf8.decode content with
    | .ok source => .ok source
    | .error fault =>
      .error (.transform path ("source is not valid UTF-8 (".toList ++ fault.message ++ [')']))

/-- The answer to a request for a script. -/
def answerScript (disk : Disk) (root : Path) (file : Path) (c : Context) : Context :=
  match readScript disk file c.path with
  | .ok source =>
    c.respond ContentType.javascript (.text (Import.rewriteSource disk root source).code)
  | .error fault => c.fail 500 ContentType.plainText fault.message

/-- The stage that rewrites the imports of scripts. -/
def scriptStage (disk : Disk) (root : Path) : Stage σ where
  name := "script".toList
  handle next c log :=
    if scriptSuffixes.any (Text.endsWith c.path) then
      match requestedFile? disk root c.path with
      | some file => ⟨.done, answerScript disk root file c, log⟩
      | none => next c log
    else next c log

/-! ### Other files -/

/-- The page that a folder is served through. -/
def indexFile : Text := "index.html".toList

/-- The file that answers a request path: the file it leads to, or the index page of the folder it
leads to. -/
def staticFile? (disk : Disk) (root : Path) (path : Text) : Option Path :=
  match Url.toPath? root path with
  | none => none
  | some file =>
    if disk.isFile file then some file
    else if disk.isFolder file && disk.isFile (file.join indexFile) then
      some (file.join indexFile)
    else none

/-- The stage that serves files as they are. -/
def staticStage (disk : Disk) (root : Path) : Stage σ where
  name := "static".toList
  handle next c log :=
    match staticFile? disk root c.path with
    | none => next c log
    | some file =>
      match disk.read file with
      | .ok content => ⟨.done, c.respond (ContentType.ofPath file) (.raw content), log⟩
      | .error _ => next c log

/-! ### The chain -/

/-- The standard chain. -/
def standard (disk : Disk) (settings : ChainSettings) : List (Stage σ) :=
  [boundary, htmlStage, componentStage disk settings, scriptStage disk settings.root,
    staticStage disk settings.root]

/-- **The answer of the standard chain to a request.** -/
def answer (disk : Disk) (settings : ChainSettings) (target : Text) : Context :=
  (serve (standard disk settings) target ()).context

end Unbundled
