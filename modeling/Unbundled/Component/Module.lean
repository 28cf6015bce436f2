import Unbundled.Component.Descriptor
import Unbundled.Component.Script
import Unbundled.Text.Literal

/-! # Component modules

A component file becomes one module. The template is shipped as a string, for the runtime to compile,
the default export of the script becomes the component object, and the styles are added to the page
when the module runs.

* `compileTemplate`, `compileScript`: the code of a block.
* `assemble`: the module of a component file.
* `failureModule`: the module that reports a failure in the console of the browser.
-/

namespace Unbundled.Component

/-- The name of the component object in a module. -/
def mainName : Text := "__sfc_main".toList

/-- The name of the template in a module. -/
def templateName : Text := "__sfc_template".toList

/-- The name of the style element in a module. -/
def styleName : Text := "__sfc_style".toList

/-- The attribute of a style element that holds the id of its component. -/
def styleAttribute : Text := "data-minivite-component".toList

/-! ### Blocks -/

/-- Refuses a block that refers to another file. -/
def checkExternal (tag : Text) (b : Block) : Except Cause Unit :=
  match b.attr? "src".toList with
  | some source => .error (.external tag source)
  | none => .ok ()

/-- Refuses a block in a language that is not among the given ones. -/
def checkLanguage (tag : Text) (known : List Text) (b : Block) : Except Cause Unit :=
  match b.attr? "lang".toList with
  | some lang => if known.contains lang then .ok () else .error (.language tag lang)
  | none => .ok ()

/-- The line that declares the template. -/
def compileTemplate (b : Block) : Except Cause Text := do
  checkExternal "template".toList b
  checkLanguage "template".toList ["html".toList] b
  return "const ".toList ++ templateName ++ " = ".toList ++ Literal.quote (Text.trim b.content) ++
    [';']

/-- The declaration of a component object without options. -/
def emptyMain : Text := "const ".toList ++ mainName ++ " = \x7b\x7d;".toList

/-- The code of a script with its default export turned into the declaration of the component
object. A script without one declares an object without options. -/
def bindMain (code : Text) : Text :=
  match defaultExport? (Cursor.start code) with
  | some (before, after) =>
    before.behind.reverse ++ "const ".toList ++ mainName ++ " =".toList ++ after.ahead
  | none => code ++ '\n' :: emptyMain

/-- The code that declares the component object. -/
def compileScript (script : Option Block) : Except Cause Text :=
  match script with
  | none => .ok emptyMain
  | some b => do
    checkExternal "script".toList b
    checkLanguage "script".toList ["js".toList, "javascript".toList] b
    return bindMain (Text.trim b.content)

/-! ### Modules -/

/-- The id of a component: its request path with `_` for all but ASCII letters and digits. -/
def idOf (requestPath : Text) : Text := requestPath.map fun c => if c.isAlphanum then c else '_'

/-- A line. -/
def line (t : Text) : Text := t ++ ['\n']

/-- The line that sets a property of the component object to a text. -/
def propertyLine (name value : Text) : Text :=
  line (mainName ++ '.' :: name ++ " = ".toList ++ value ++ [';'])

/-- The lines that add a style to the page. -/
def styleLines (id css : Text) : Text :=
  line ("const ".toList ++ styleName ++ " = document.createElement('style');".toList) ++
  line (styleName ++ ".setAttribute('".toList ++ styleAttribute ++ "', ".toList ++
    Literal.quote id ++ ");".toList) ++
  line (styleName ++ ".textContent = ".toList ++ Literal.quote css ++ [';']) ++
  line ("document.head.appendChild(".toList ++ styleName ++ ");".toList)

/-- The text of all styles, a line break between any two. -/
def joinStyles (styles : List Block) : Text := ['\n'].intercalate (styles.map Block.content)

/-- The line that ends a module. -/
def exportLine : Text := line ("export default ".toList ++ mainName ++ [';'])

/-- The module of a component's blocks. -/
def Descriptor.toModule (d : Descriptor) (file id : Text) : Except Cause Text := do
  let template ← d.template.mapM compileTemplate
  let script ← compileScript d.script
  return (match template with
      | some code => line code
      | none => []) ++
    line script ++
    (if template.isSome then propertyLine "template".toList templateName else []) ++
    propertyLine "__hmrId".toList (Literal.quote id) ++
    propertyLine "__file".toList (Literal.quote file) ++
    (if d.styles.isEmpty then [] else styleLines id (joinStyles d.styles)) ++
    exportLine

/-- The blocks of a named component file. -/
def parse (file source : Text) : Except Fault Descriptor :=
  (Descriptor.parse source).mapError (⟨file, ·⟩)

/-- **The module of a component file.** -/
def assemble (file id source : Text) : Except Fault Text :=
  ((Descriptor.parse source).bind fun d => d.toModule file id).mapError (⟨file, ·⟩)

/-- The module that reports a failure in the console of the browser. -/
def failureModule (message : Text) : Text :=
  line "// component compilation failed".toList ++
    line ("console.error(".toList ++ Literal.quote message ++ ");".toList)

end Unbundled.Component
