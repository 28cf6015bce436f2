import Unbundled.Config.File

/-! # Where settings come from

Settings come from three layers. Defaults come first, what the configuration file says overrides
them, and what the command line says overrides both. The file is the one that the command line names,
or else the one found in the root or in the working folder.

* `Settings.load`: the first two layers.
* `Choices.resolve`: all three, with the root made absolute.
-/

namespace Unbundled

namespace Settings

/-- The configuration file in a folder, if there is one. -/
def findFile? (disk : Disk) (folder : Path) : Option Path :=
  let file := folder.join ConfigFile.fileName
  if disk.isFile file then some file else none

/-- The default settings for a root, under those of the given configuration file or of the one found
in the root. -/
def load (disk : Disk) (root : Path) (explicit : Option Path) : Except Fault Settings :=
  match explicit <|> findFile? disk root with
  | none => .ok (ofRoot root)
  | some file => do
    let config ← ConfigFile.load disk file
    return config.overlay (file.parent?.getD root) (ofRoot root)

end Settings

/-- What the command line says about the settings. -/
structure Choices where
  workingFolder : Path
  root : Option Path
  port : Option UInt16
  host : Option Text
  config : Option Path
  rewriteComponentImports : Bool
  deriving DecidableEq, Repr

namespace Choices

/-- Settings with what the command line says laid over them. -/
def overlay (c : Choices) (s : Settings) : Settings where
  port := c.port.getD s.port
  host := c.host.getD s.host
  root := c.root.getD s.root
  rewriteComponentImports := c.rewriteComponentImports || s.rewriteComponentImports

/-- **The settings that the server runs with.** -/
def resolve (disk : Disk) (c : Choices) : Except Fault Settings := do
  let settings ← Settings.load disk (c.root.getD c.workingFolder) c.config
  (c.overlay settings).locateRoot disk

end Choices

end Unbundled
