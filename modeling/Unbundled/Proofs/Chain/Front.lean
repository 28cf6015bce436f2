import Unbundled.Proofs.Chain.Spelling
import Unbundled.Proofs.Component.Layout
import Unbundled.Proofs.Import.Ascending
import Unbundled.Proofs.Import.Reading

/-! # The line of the template

The template of a component is shipped as a literal in the first line of its module. The scan for
imports enters the module at this line and leaves it at its end, whatever the template says: it passes
the literal as one string, and around it there are only names and marks (`scan_templateText`). All
imports that are found hence stand behind the line, and a rewriting keeps what stands in front of the
first import (`constantLine_kept`). -/

namespace Unbundled

open Source Component Import

variable {disk : Disk} {settings : ChainSettings} {root place : Path} {b : Block} {d : Descriptor}
  {behind file id m raw source t target value : Text}

/-! ### The scan -/

/-- A declaration of a constant as a literal, from its name on, is passed. -/
theorem scanFrom_constant {name : Text} (hn : IsWord name) (h1 : name ≠ "import".toList)
    (h2 : name ≠ "export".toList) (h : Inside '"' raw) (t : Text) :
    scanFrom ⟨behind, name ++ ([' ', '=', ' '] ++ (quoted '"' raw ++ ([';', '\n'] ++ t)))⟩ =
      scanFrom ⟨[';', '\n'].reverse ++ ((quoted '"' raw).reverse ++
        ([' ', '=', ' '].reverse ++ (name.reverse ++ behind))), t⟩ := by
  have hequals : ∀ x ∈ [' ', '=', ' '], isPlain x := List.all_eq_true.mp (by decide)
  have hend : ∀ x ∈ [';', '\n'], isPlain x := List.all_eq_true.mp (by decide)
  have hnext (u : Text) : NoWord ([' ', '=', ' '] ++ u) := noWord_cons (by decide) _
  rw [scanFrom_name hn (hnext _) h1 h2, scanFrom_plains hequals, scanFrom_quoted (by decide) h,
    scanFrom_plains hend]

/-- **The line of a template is passed**, and the scan goes on as if it began there. -/
theorem scan_templateText (h : Inside '"' raw) (t : Text) :
    scan (templateText raw ++ t) = scanFrom ⟨(templateText raw).reverse, t⟩ := by
  have hlead : "const __sfc_template = ".toList =
      "const".toList ++ ([' '] ++ (templateName ++ [' ', '=', ' '])) := by decide
  have hend : ";\n".toList = [';', '\n'] := by decide
  have hconst : IsWord "const".toList := ⟨by decide, by decide⟩
  have hname : IsWord templateName := ⟨by decide, by decide⟩
  have hspace : ∀ x ∈ [' '], isPlain x := List.all_eq_true.mp (by decide)
  have hnext (u : Text) : NoWord ([' '] ++ u) := noWord_cons (by decide) _
  have heq : templateText raw = "const".toList ++ ([' '] ++ (templateName ++ [' ', '=', ' '])) ++
      quoted '"' raw ++ [';', '\n'] :=
    congrArg₂ (fun lead tail => lead ++ quoted '"' raw ++ tail) hlead hend
  rw [heq, scan, Cursor.start]
  simp only [List.append_assoc, List.reverse_append]
  rw [scanFrom_name hconst (hnext _) (by decide) (by decide), scanFrom_plains hspace,
    scanFrom_constant hname (by decide) (by decide) h, List.append_nil]

/-! ### The first line of a module -/

/-- The line of a template, without the line break at its end. -/
def constantLine (raw : Text) : Text := "const __sfc_template = ".toList ++ quoted '"' raw ++ [';']

theorem templateText_append (raw t : Text) :
    templateText raw ++ t = constantLine raw ++ '\n' :: t := by
  have hend : ";\n".toList = [';'] ++ ['\n'] := by decide
  have heq : templateText raw = constantLine raw ++ ['\n'] :=
    (congrArg ("const __sfc_template = ".toList ++ quoted '"' raw ++ ·) hend).trans
      (List.append_assoc _ _ _).symm
  rw [heq, List.append_assoc, List.singleton_append]

theorem newline_not_mem_constantLine (h : Encodes raw value) : '\n' ∉ constantLine raw := by
  have hlead : '\n' ∉ "const __sfc_template = ".toList := by decide
  intro hn
  rcases List.mem_append.mp hn with hn | hn
  · exact (List.mem_append.mp hn).elim hlead h.newline_not_mem
  · exact absurd hn (by decide)

/-- All imports stand behind the first line. -/
theorem bytes_lt_start_of_mem_scan (h : Inside '"' raw) {i : Import}
    (hi : i ∈ scan (constantLine raw ++ '\n' :: t)) : Text.bytes (constantLine raw) < i.start := by
  rw [← templateText_append, scan_templateText h] at hi
  have hle := offset_le_start hi
  have hsize := congrArg Text.bytes (templateText_append raw [])
  rw [List.append_nil, Text.bytes_append, Text.bytes_cons] at hsize
  have hpos := Char.utf8Size_pos '\n'
  rw [Cursor.offset, Text.bytes_reverse, hsize] at hle
  omega

/-- The first line of a module with a template. -/
theorem exists_constantLine (h : assemble file id source = .ok m)
    (hd : parse file source = .ok d) (hb : d.template = some b) :
    ∃ raw rest, Encodes raw (Text.trim b.content) ∧ m = constantLine raw ++ '\n' :: rest := by
  obtain ⟨d', hd', hm⟩ := exists_of_assemble h
  obtain rfl := Except.ok.inj ((parse_eq_ok_iff.mp hd).symm.trans hd')
  obtain ⟨code, hcode⟩ := exists_code_of_toModule hm
  have heq := eq_of_toModule hm hcode
  rw [hb, Option.elim_some, templateLine_eq, templateText_append] at heq
  exact ⟨_, _, encodes_flatMap_escape _, heq⟩

/-! ### The answer -/

/-- The answer to a request for a component that has a module. -/
theorem answer_of_assemble (hu : Url.toPath? settings.root target = some place)
    (he : Text.endsWith (Url.pathPart target) componentSuffix)
    (hs : disk.readText place = .ok source)
    (hm : assemble (Url.pathPart target) (idOf (Url.pathPart target)) source = .ok m) :
    answer disk settings target = (Context.ofRequest target).respond ContentType.javascript (.text <|
      if settings.rewriteComponentImports then (rewriteSource disk settings.root m).code else m) := by
  obtain ⟨content, hn, hd⟩ := Disk.exists_node_of_readText hs
  rw [answer_of_file hu hn, replyOf, routeOf_eq_component_iff.mpr he]
  dsimp only
  rw [componentReply, hd]
  dsimp only
  rw [hm]
  rfl

/-- **The line of the template is sent as it is.** The first line of a module with a template declares
a literal for the trimmed content of the template. No import is found in it, whatever the template
says, and whatever the script behind it is. Hence the answer to a request for the component has the same
first line whether or not the imports of components are rewritten. -/
theorem constantLine_kept (h : assemble file id source = .ok m) (hd : parse file source = .ok d)
    (hb : d.template = some b) :
    ∃ raw rest, Encodes raw (Text.trim b.content) ∧ '\n' ∉ constantLine raw ∧
      m = constantLine raw ++ '\n' :: rest ∧
      (∀ i ∈ scan m, Text.bytes (constantLine raw) < i.start) ∧
      ∀ disk root, ∃ rest',
        (rewriteSource disk root m).code = constantLine raw ++ '\n' :: rest' ∧
        ∀ target place, Url.pathPart target = file → idOf file = id →
          Text.endsWith file componentSuffix → Url.toPath? root target = some place →
          disk.readText place = .ok source →
          answer disk ⟨root, false⟩ target = (Context.ofRequest target).respond
            ContentType.javascript (.text (constantLine raw ++ '\n' :: rest)) ∧
          answer disk ⟨root, true⟩ target = (Context.ofRequest target).respond
            ContentType.javascript (.text (constantLine raw ++ '\n' :: rest')) := by
  obtain ⟨raw, rest, hraw, rfl⟩ := exists_constantLine h hd hb
  have hstart : ∀ i ∈ scan (constantLine raw ++ '\n' :: rest),
      Text.bytes (constantLine raw) < i.start := fun i hi => bytes_lt_start_of_mem_scan hraw.inside hi
  refine ⟨raw, rest, hraw, newline_not_mem_constantLine hraw, rfl, hstart, fun disk root => ?_⟩
  have hfront : ∀ i ∈ scan (constantLine raw ++ ['\n'] ++ rest),
      Text.bytes (constantLine raw ++ ['\n']) ≤ i.start := fun i hi => by
    rw [List.append_assoc, List.singleton_append] at hi
    rw [Text.bytes_append]
    exact hstart i hi
  obtain ⟨rest', hcode⟩ := exists_code_front disk root hfront
  rw [List.append_assoc, List.append_assoc, List.singleton_append, List.singleton_append] at hcode
  refine ⟨rest', hcode, fun target place hfile hid he hu hs => ?_⟩
  subst hfile hid
  constructor
  · exact answer_of_assemble hu he hs h
  · rw [← hcode]
    exact answer_of_assemble hu he hs h

/-- A component whose template and script both show an import. -/
def importingPage : Text :=
  "<template> \"; import 'x/y' </template><script>import z from 'x/y'\nexport default z</script>".toList

/-- The module of this component. -/
def importingModule : Text :=
  layout (some "\\\"; import 'x/y'".toList) "import z from 'x/y'\nconst __sfc_main = z".toList
    "_a_vue".toList "/a.vue".toList none

/-- A project with this component and the package that it imports from. -/
def importing : Disk where
  top := .folder [("app".toList, .folder [
    ("a.vue".toList, .file (Text.encode importingPage)),
    ("node_modules".toList, .folder [("x".toList, .folder [("y.js".toList, .file [])])])])]
  workingFolder := []
  library := .silent

theorem constantLine_kept_importing : ∃ raw rest rest',
    Encodes raw "\"; import 'x/y'".toList ∧ rest ≠ rest' ∧
      answer importing ⟨⟨"app".toList⟩, false⟩ "/a.vue".toList =
        ⟨"/a.vue".toList, 200, some ContentType.javascript,
          some (.text (constantLine raw ++ '\n' :: rest))⟩ ∧
      answer importing ⟨⟨"app".toList⟩, true⟩ "/a.vue".toList =
        ⟨"/a.vue".toList, 200, some ContentType.javascript,
          some (.text (constantLine raw ++ '\n' :: rest'))⟩ := by
  have hd : Descriptor.parse importingPage = .ok
      ⟨some ⟨" \"; import 'x/y' ".toList, [], 10⟩,
        some ⟨"import z from 'x/y'\nexport default z".toList, [], 46⟩, []⟩ := by decide +kernel
  have hm : assemble "/a.vue".toList "_a_vue".toList importingPage = .ok importingModule :=
    (assemble_eq_ok_iff hd).mpr (by decide +kernel)
  have hs : importing.readText ⟨"app/a.vue".toList⟩ = .ok importingPage := by decide +kernel
  have hne : (rewriteSource importing ⟨"app".toList⟩ importingModule).code ≠ importingModule := by
    decide +kernel
  obtain ⟨raw, rest, hraw, -, hrest, -, hserved⟩ := constantLine_kept hm (parse_eq_ok_iff.mpr hd) rfl
  obtain ⟨rest', hcode, hanswer⟩ := hserved importing ⟨"app".toList⟩
  obtain ⟨h1, h2⟩ := hanswer "/a.vue".toList ⟨"app/a.vue".toList⟩ (by decide) (by decide)
    (by decide) (by decide +kernel) hs
  refine ⟨raw, rest, rest', hraw, ?_, h1, h2⟩
  rintro rfl
  exact hne (hcode.trans hrest.symm)

end Unbundled
