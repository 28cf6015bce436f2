import Unbundled.Config.Resolve
import Unbundled.Proofs.Disk.Canonical
import Unbundled.Proofs.Path.Parents

/-! # Which settings win

What the server runs with is told here by rules: which configuration file counts
(`Choices.configFile?`), what reading it can give (`Choices.Reads`), and what comes out of it and of the
command line (`Choices.Resolves`). Every value is the one of the command line, else the one of the file,
else the default.

* `Choices.resolve_of_resolves`: the rules hold of the settings that the server computes.
* `Choices.exists_resolves`: there is always a rule that applies.
* `Choices.rooted_of_resolves`: the root of the settings is the path of the folder that was chosen.
* `Choices.resolve_eq_iff`: the settings are those that the rules give, and no others. -/

namespace Unbundled

variable {disk other : Disk} {c : Choices} {file : Path}

/-! ### Files that lie in a folder -/

/-- A file lies in a folder. -/
theorem Disk.exists_parent?_of_isFile (h : disk.isFile file) : ∃ dir, file.parent? = some dir := by
  obtain ⟨place, ht, hfolder⟩ := Disk.exists_trace_of_isFile h
  refine Option.ne_none_iff_exists'.mp fun hnone => hfolder ?_
  have hidle := Path.isIdle_of_parent?_eq_none hnone
  obtain ⟨-, -, hw⟩ := Disk.trace_eq_ok_iff.mp ht
  obtain ⟨first, rest, hsegs⟩ := file.exists_segments
  -- without a segment that counts, the walk asks for a folder and stays there
  have hstay := Disk.walk_filter hw
  rw [List.filter_eq_nil_iff.mpr (by simpa using hidle)] at hstay
  obtain rfl := Except.ok.inj hstay
  rw [hsegs] at hw
  obtain ⟨next, hm, -⟩ := Disk.exists_of_walk_cons hw
  exact Disk.hasFolder_of_move hm

/-! ### The file that counts -/

/-- What a configuration file sets, with its root as a path. -/
structure Overrides where
  port : Option UInt16
  host : Option Text
  root : Option Path
  rewriteComponentImports : Option Bool
  deriving DecidableEq, Repr

/-- What is set where there is no file. -/
def Overrides.empty : Overrides := ⟨none, none, none, none⟩

/-- What a file in the folder `dir` sets. -/
def ConfigFile.toOverrides (config : ConfigFile) (dir : Path) : Overrides :=
  ⟨config.port, config.host, config.root.map dir.join, config.rewriteComponentImports⟩

/-- The settings that overrides make of the defaults. -/
def Overrides.over (f : Overrides) (base : Path) : Settings where
  port := f.port.getD Settings.defaultPort
  host := f.host.getD Settings.defaultHost
  root := f.root.getD base
  rewriteComponentImports := f.rewriteComponentImports.getD false

namespace Choices

/-- The folder that is meant if nothing else is said: the root of the command line, or else the working
folder. -/
def base (c : Choices) : Path := c.root.getD c.workingFolder

/-- The configuration file that counts: the one that the command line names, or else the one in the base
folder, if there is a file. -/
def configFile? (disk : Disk) (c : Choices) : Option Path :=
  match c.config with
  | some file => some file
  | none =>
    if disk.isFile (c.base.join ConfigFile.fileName) then some (c.base.join ConfigFile.fileName)
    else none

/-- **What reading the configuration file gives.** -/
inductive Reads (disk : Disk) (c : Choices) : Except Fault Overrides → Prop
  | nothing : c.configFile? disk = none → Reads disk c (.ok .empty)
  | unread {file : Path} {cause : Disk.Fault} : c.configFile? disk = some file →
      disk.readText file = .error cause → Reads disk c (.error (.configRead file cause))
  | malformed {file : Path} {content : Text} : c.configFile? disk = some file →
      disk.readText file = .ok content → ConfigFile.parse? content = none →
      Reads disk c (.error (.configParse file (disk.library.config content)))
  | values {file dir : Path} {content : Text} {config : ConfigFile} :
      c.configFile? disk = some file → disk.readText file = .ok content →
      ConfigFile.parse? content = some config → file.parent? = some dir →
      Reads disk c (.ok (config.toOverrides dir))

/-- The root that is chosen: that of the command line, else that of the file, else the base folder. -/
def rootWith (c : Choices) (f : Overrides) : Path := (c.root.or f.root).getD c.base

/-- The settings that are chosen, with the absolute form of their root. -/
def settingsWith (c : Choices) (f : Overrides) (root : Path) : Settings where
  port := (c.port.or f.port).getD 3000
  host := (c.host.or f.host).getD "localhost".toList
  root := root
  rewriteComponentImports := c.rewriteComponentImports || f.rewriteComponentImports.getD false

/-- **Where settings come from.** The file that counts has to be readable and well formed, and the root
that is chosen has to be a folder. -/
inductive Resolves (disk : Disk) (c : Choices) : Except Fault Settings → Prop
  | file {fault : Fault} : c.Reads disk (.error fault) → Resolves disk c (.error fault)
  | missing {f : Overrides} {cause : Disk.Fault} : c.Reads disk (.ok f) →
      disk.canonical (c.rootWith f) = .error cause →
      Resolves disk c (.error (.rootNotFound (c.rootWith f)))
  | noFolder {f : Overrides} {root : Path} : c.Reads disk (.ok f) →
      disk.canonical (c.rootWith f) = .ok root → ¬ disk.isFolder root →
      Resolves disk c (.error (.rootNotFound root))
  | settled {f : Overrides} {root : Path} : c.Reads disk (.ok f) → disk.Opens (c.rootWith f) root →
      Resolves disk c (.ok (c.settingsWith f root))

/-- **Where the root of the settings lies.** It is the absolute path of the folder that the chosen root
leads to, and leads to this folder as well. A root in a configuration file is taken from the folder of
the file, which has all steps of the file but the last one. -/
structure Rooted (disk : Disk) (c : Choices) (f : Overrides) (root : Path) : Prop where
  place : ∃ place, disk.trace (c.rootWith f) = .ok place ∧ Disk.HasFolder disk.top place ∧
    root = Disk.pathOf place ∧ disk.trace root = .ok place
  folder : ∀ file, c.configFile? disk = some file →
    ∃ config dir, f = ConfigFile.toOverrides config dir ∧ dir.steps = file.steps.dropLast

/-! ### The rules hold -/

theorem configFile?_eq (disk : Disk) (c : Choices) :
    c.configFile? disk = (c.config <|> Settings.findFile? disk c.base) := by
  rw [configFile?]
  cases c.config <;> rfl

theorem load_eq_of_nothing (h : c.configFile? disk = none) :
    Settings.load disk c.base c.config = .ok (Overrides.empty.over c.base) := by
  rw [Settings.load, ← configFile?_eq, h]
  rfl

theorem load_eq_of_file (h : c.configFile? disk = some file) :
    Settings.load disk c.base c.config = (ConfigFile.load disk file).map fun config =>
      (config.toOverrides (file.parent?.getD c.base)).over c.base := by
  rw [Settings.load, ← configFile?_eq, h]
  dsimp only
  cases ConfigFile.load disk file <;> rfl

/-- What has been read is laid over the defaults. -/
theorem load_of_reads {out : Except Fault Overrides} (h : c.Reads disk out) :
    Settings.load disk c.base c.config = out.map fun f => f.over c.base := by
  cases h with
  | nothing h => exact load_eq_of_nothing h
  | unread h hr =>
    rw [load_eq_of_file h, ConfigFile.load, hr]
    rfl
  | malformed h hr hp =>
    rw [load_eq_of_file h, ConfigFile.load, hr]
    dsimp only
    rw [hp]
    rfl
  | values h hr hp hd =>
    rw [load_eq_of_file h, ConfigFile.load, hr]
    dsimp only
    rw [hp, hd]
    rfl

/-- The command line is laid over what has been read. -/
theorem overlay_over (c : Choices) (f : Overrides) :
    c.overlay (f.over c.base) = c.settingsWith f (c.rootWith f) := by
  rw [overlay, settingsWith, rootWith, Option.getD_or, Option.getD_or, Option.getD_or]
  rfl

theorem resolve_eq_bind (disk : Disk) (c : Choices) :
    c.resolve disk = (Settings.load disk c.base c.config).bind fun s =>
      (c.overlay s).locateRoot disk := rfl

theorem resolve_of_fault {fault : Fault} (h : c.Reads disk (.error fault)) :
    c.resolve disk = .error fault := by
  rw [resolve_eq_bind, load_of_reads h]
  rfl

/-- What is left to do is to locate the root. -/
theorem resolve_of_reads {f : Overrides} (h : c.Reads disk (.ok f)) : c.resolve disk =
    match disk.canonical (c.rootWith f) with
    | .error _ => .error (.rootNotFound (c.rootWith f))
    | .ok root =>
      if disk.isFolder root then .ok (c.settingsWith f root) else .error (.rootNotFound root) := by
  rw [resolve_eq_bind, load_of_reads h]
  change (c.overlay (f.over c.base)).locateRoot disk = _
  rw [overlay_over]
  rfl

/-- **The rules hold of the settings that the server computes.** -/
theorem resolve_of_resolves {out : Except Fault Settings} (h : c.Resolves disk out) :
    c.resolve disk = out := by
  cases h with
  | file h => exact resolve_of_fault h
  | missing h hc => rw [resolve_of_reads h, hc]
  | noFolder h hc hf =>
    rw [resolve_of_reads h, hc]
    exact if_neg hf
  | settled h ho =>
    rw [resolve_of_reads h, ho.1]
    exact if_pos ho.2

/-! ### The rules cover everything -/

theorem exists_reads (disk : Disk) (c : Choices) : ∃ out, c.Reads disk out := by
  cases hfile : c.configFile? disk with
  | none => exact ⟨_, .nothing hfile⟩
  | some file =>
    cases hread : disk.readText file with
    | error cause => exact ⟨_, .unread hfile hread⟩
    | ok content =>
      cases hparse : ConfigFile.parse? content with
      | none => exact ⟨_, .malformed hfile hread hparse⟩
      | some config =>
        obtain ⟨bytes, hnode, -⟩ := Disk.exists_node_of_readText hread
        obtain ⟨dir, hdir⟩ := Disk.exists_parent?_of_isFile (Disk.isFile_iff.mpr ⟨bytes, hnode⟩)
        exact ⟨_, .values hfile hread hparse hdir⟩

/-- **There is always a rule that applies.** -/
theorem exists_resolves (disk : Disk) (c : Choices) : ∃ out, c.Resolves disk out := by
  obtain ⟨out, hreads⟩ := exists_reads disk c
  cases out with
  | error fault => exact ⟨_, .file hreads⟩
  | ok f =>
    cases hc : disk.canonical (c.rootWith f) with
    | error cause => exact ⟨_, .missing hreads hc⟩
    | ok root =>
      by_cases hf : disk.isFolder root
      · exact ⟨_, .settled hreads ⟨hc, hf⟩⟩
      · exact ⟨_, .noFolder hreads hc hf⟩

theorem resolve_iff_resolves (disk : Disk) (c : Choices) (out : Except Fault Settings) :
    c.resolve disk = out ↔ c.Resolves disk out := by
  constructor
  · rintro rfl
    obtain ⟨out, h⟩ := exists_resolves disk c
    rwa [resolve_of_resolves h]
  · exact resolve_of_resolves

/-! ### The root of the settings -/

theorem exists_folder_of_reads {f : Overrides} (hr : c.Reads disk (.ok f))
    (hfile : c.configFile? disk = some file) :
    ∃ config dir, f = ConfigFile.toOverrides config dir ∧ dir.steps = file.steps.dropLast := by
  cases hr with
  | nothing hnone => exact absurd (hnone.symm.trans hfile) (by simp)
  | @values _ dir _ config hf _ _ hdir =>
    obtain rfl := Option.some.inj (hf.symm.trans hfile)
    exact ⟨config, dir, rfl, Path.steps_of_parent? hdir⟩

/-- **The root of the settings is the folder that was chosen**, if the working folder is there. -/
theorem rooted_of_resolves (hwork : Disk.Reached disk.top disk.workingFolder) {s : Settings}
    (h : c.Resolves disk (.ok s)) :
    ∃ f, c.Reads disk (.ok f) ∧ s = c.settingsWith f s.root ∧ c.Rooted disk f s.root := by
  cases h with
  | @settled f root hr ho =>
    obtain ⟨place, ht, hf, rfl, -⟩ := (Disk.opens_iff hwork).mp ho
    have hroot := Disk.trace_pathOf (Disk.reached_of_trace hwork ht) hf
    exact ⟨f, hr, rfl, ⟨place, ht, hf, rfl, hroot⟩, fun _ => exists_folder_of_reads hr⟩

/-! ### Files that do not count -/

theorem configFile?_of_sameTree (h : disk.SameTree other) (c : Choices) :
    c.configFile? other = c.configFile? disk := by
  rw [configFile?, configFile?, h.isFile_eq]

theorem reads_of_sameTree (h : disk.SameTree other)
    (hfile : ∀ file, c.configFile? disk = some file → other.readText file = disk.readText file)
    {out : Except Fault Overrides} (hr : c.Reads disk out) : c.Reads other out := by
  have hsame := configFile?_of_sameTree h c
  cases hr with
  | nothing hf => exact .nothing (hsame.trans hf)
  | unread hf hr => exact .unread (hsame.trans hf) ((hfile _ hf).trans hr)
  | malformed hf hr hp =>
    rw [h.library]
    exact .malformed (hsame.trans hf) ((hfile _ hf).trans hr) hp
  | values hf hr hp hd => exact .values (hsame.trans hf) ((hfile _ hf).trans hr) hp hd

/-- **Only the file that counts is read.** -/
theorem resolves_of_sameTree (h : disk.SameTree other)
    (hfile : ∀ file, c.configFile? disk = some file → other.readText file = disk.readText file)
    {out : Except Fault Settings} (hr : c.Resolves disk out) : c.Resolves other out := by
  have hcanonical (p : Path) : other.canonical p = disk.canonical p := by
    rw [Disk.canonical, Disk.canonical, h.trace_eq]
  cases hr with
  | file hr => exact .file (reads_of_sameTree h hfile hr)
  | missing hr hc => exact .missing (reads_of_sameTree h hfile hr) ((hcanonical _).trans hc)
  | noFolder hr hc hf =>
    exact .noFolder (reads_of_sameTree h hfile hr) ((hcanonical _).trans hc) (h.isFolder_eq _ ▸ hf)
  | settled hr ho =>
    exact .settled (reads_of_sameTree h hfile hr)
      ⟨(hcanonical _).trans ho.1, h.isFolder_eq _ ▸ ho.2⟩

/-- **The settings are those that the rules give, and no others.** If the command line names a
configuration file, this is the only one that is read: the settings are the same whatever the other files
hold, one in the base folder included. The root is the folder that was chosen, and no other. -/
theorem resolve_eq_iff (disk : Disk) (c : Choices) :
    (∀ out, c.resolve disk = out ↔ c.Resolves disk out) ∧
      (∀ file other, c.config = some file → disk.SameTree other →
        other.readText file = disk.readText file → c.resolve other = c.resolve disk) ∧
      (Disk.Reached disk.top disk.workingFolder → ∀ s, c.resolve disk = .ok s →
        ∃ f, c.Reads disk (.ok f) ∧ s = c.settingsWith f s.root ∧ c.Rooted disk f s.root) := by
  refine ⟨resolve_iff_resolves disk c, fun file other hfile htree hread => ?_, fun hwork s hs => ?_⟩
  · refine resolve_of_resolves (resolves_of_sameTree htree (fun counts hcounts => ?_)
      ((resolve_iff_resolves disk c _).mp rfl))
    rw [configFile?, hfile] at hcounts
    rwa [← Option.some.inj hcounts]
  · exact rooted_of_resolves hwork ((resolve_iff_resolves disk c _).mp hs)

/-- A configuration with a root beside the file. -/
def namedContent : Text := "\x7b\"port\": 4000, \"host\": \"h\", \"root\": \"app\"\x7d".toList

/-- What a JSON library says of an object that is not closed. -/
def unclosedWords : Text := "EOF while parsing an object at line 1 column 1".toList

/-- A disk with a configuration file that is named, and one in the base folder with any content. -/
def discovering (found : Bytes) : Disk where
  top := .folder [
    (ConfigFile.fileName, .file found),
    ("c.json".toList, .file (Text.encode namedContent)),
    ("app".toList, .folder [])]
  workingFolder := []
  library := ⟨fun _ => [], fun content => if content = ['\x7b'] then unclosedWords else []⟩

theorem sameTree_discovering (a b : Bytes) : (discovering a).SameTree (discovering b) where
  workingFolder := rfl
  library := rfl
  kind := by
    rintro (_ | ⟨n, names⟩)
    · rfl
    rw [Node.at?, Node.at?]
    by_cases hn : n = ConfigFile.fileName
    · subst hn
      cases names <;> rfl
    · have hrest (found : Bytes) :
          (discovering found).top.entry? n = ((discovering []).top.entries.drop 1).lookup n := by
        rw [discovering, Node.entry?, List.lookup_cons, beq_false_of_ne hn]
        rfl
      rw [hrest a, hrest b]

/-- A command line that names the configuration file and sets the port. -/
def explicitChoices : Choices :=
  ⟨⟨['/']⟩, none, some 5000, none, some ⟨"/c.json".toList⟩, false⟩

theorem resolve_eq_iff_explicit :
    (discovering [0x7b]).Opens ⟨"/app".toList⟩ ⟨"/app".toList⟩ ∧
      explicitChoices.resolve (discovering [0x7b]) =
        .ok ⟨5000, "h".toList, ⟨"/app".toList⟩, false⟩ ∧
      explicitChoices.resolve (discovering [0x7b, 0x7d]) =
        explicitChoices.resolve (discovering [0x7b]) ∧
      { explicitChoices with config := none }.resolve (discovering [0x7b]) =
        .error (.configParse ⟨"/minivite.config.json".toList⟩ unclosedWords) ∧
      ∃ f, explicitChoices.Reads (discovering [0x7b]) (.ok f) ∧
        explicitChoices.Rooted (discovering [0x7b]) f ⟨"/app".toList⟩ := by
  have hopens : (discovering [0x7b]).Opens ⟨"/app".toList⟩ ⟨"/app".toList⟩ :=
    ⟨by decide +kernel, by decide +kernel⟩
  have hfile : explicitChoices.configFile? (discovering [0x7b]) = some ⟨"/c.json".toList⟩ := rfl
  have hread : (discovering [0x7b]).readText ⟨"/c.json".toList⟩ = .ok namedContent := by
    decide +kernel
  have hparse : ConfigFile.parse? namedContent =
      some ⟨some 4000, some "h".toList, some "app".toList, none⟩ := by decide +kernel
  have hdir : Path.parent? ⟨"/c.json".toList⟩ = some ⟨['/']⟩ := by decide +kernel
  have hfound : Choices.configFile? (discovering [0x7b]) { explicitChoices with config := none } =
      some ⟨"/minivite.config.json".toList⟩ := by decide +kernel
  have hbrace : (discovering [0x7b]).readText ⟨"/minivite.config.json".toList⟩ = .ok ['\x7b'] := by
    decide +kernel
  obtain ⟨hiff, hother, hroot⟩ := resolve_eq_iff (discovering [0x7b]) explicitChoices
  have hresolve := (hiff _).mpr (.settled (.values hfile hread hparse hdir) hopens)
  obtain ⟨f, hf, -, hrooted⟩ := hroot (Disk.reached_nil _) _ hresolve
  refine ⟨hopens, hresolve, ?_, ?_, f, hf, hrooted⟩
  · exact hother _ (discovering [0x7b, 0x7d]) rfl (sameTree_discovering _ _) (by decide +kernel)
  · exact ((resolve_eq_iff _ _).1 _).mpr (.file (.malformed hfound hbrace (by decide +kernel)))

end Choices

end Unbundled
