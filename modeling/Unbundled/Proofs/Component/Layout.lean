import Unbundled.Proofs.Component.Modules
import Unbundled.Proofs.Component.Pages
import Unbundled.Proofs.Component.Placement

/-! # The text of a component module

A component module is fixed text with literals in it, around the code of the script (`layout`). What
stands between the quotes of a literal is such that a reader of the module finds one string there and
gets the text back that the literal was written for (`Encodes`).

* `encodes_flatMap_escape`: the literals that are written are of this kind.
* `assemble_layout`: the module of a component file. -/

namespace Unbundled.Component

open Source

variable {b : Block} {code file id m source : Text} {d : Descriptor}

/-! ### Literals -/

/-- **What stands between the quotes of a literal** for a text: no control character, no quote and no
backslash that is not part of an escape. Read from its opening quote on, the literal is one string,
whatever stands around it. -/
structure Encodes (raw value : Text) : Prop where
  control : ∀ c ∈ raw, 0x20 ≤ c.toNat
  inside : Inside '"' raw
  string : ∀ behind t, Lexeme.read behind '"' (raw ++ '"' :: t) = ⟨.string, raw.length + 1⟩
  decode : Literal.decode? raw = some value

/-- A literal stays on its line. -/
theorem Encodes.newline_not_mem {raw value : Text} (h : Encodes raw value) :
    '\n' ∉ quoted '"' raw := by
  have hraw : '\n' ∉ raw := fun hn => absurd (h.control '\n' hn) (by decide)
  simp [quoted, hraw]

theorem toNat_hexDigit : ∀ n < 16, 0x20 ≤ (Literal.hexDigit n).toNat := by decide

theorem toNat_escape (c : Char) : ∀ x ∈ Literal.escape c, 0x20 ≤ x.toNat := by
  have hshort : ∀ e : Char, 0x20 ≤ e.toNat → ∀ x ∈ ['\\', e], 0x20 ≤ x.toNat := by
    intro e he x hx
    rcases List.mem_cons.mp hx with rfl | hx
    · decide
    · exact List.mem_singleton.mp hx ▸ he
  unfold Literal.escape
  split
  · exact hshort _ (by decide)
  split
  · exact hshort _ (by decide)
  split
  · exact hshort _ (by decide)
  split
  · exact hshort _ (by decide)
  split
  · exact hshort _ (by decide)
  split
  · exact hshort _ (by decide)
  split
  · exact hshort _ (by decide)
  split
  · intro x hx
    have h1 := toNat_hexDigit (c.toNat / 16) (by omega)
    have h2 := toNat_hexDigit (c.toNat % 16) (by omega)
    simp only [List.mem_cons, List.not_mem_nil, or_false] at hx
    rcases hx with rfl | rfl | rfl | rfl | rfl | rfl
    all_goals first | assumption | decide
  · rename_i h
    intro x hx
    rw [List.mem_singleton.mp hx]
    omega

/-- **The literals that are written** stand for the texts they were written for. -/
theorem encodes_flatMap_escape (t : Text) : Encodes (t.flatMap Literal.escape) t where
  control c hc := by
    obtain ⟨x, -, hx⟩ := List.mem_flatMap.mp hc
    exact toNat_escape x c hx
  inside := inside_flatMap_escape t
  string _ u :=
    Lexeme.read_string (by decide) (stringEnd?_append (by decide) u (inside_flatMap_escape t))
  decode := Literal.decode?_flatMap_escape t

/-! ### Modules -/

/-- The line of a template. -/
def templateText (raw : Text) : Text :=
  "const __sfc_template = ".toList ++ quoted '"' raw ++ ";\n".toList

/-- The lines that add a style to the page. -/
def styleText (id raw : Text) : Text :=
  "const __sfc_style = document.createElement('style');\n".toList ++
  ("__sfc_style.setAttribute('data-minivite-component', ".toList ++ quoted '"' id ++ ");\n".toList) ++
  ("__sfc_style.textContent = ".toList ++ quoted '"' raw ++ ";\n".toList) ++
  "document.head.appendChild(__sfc_style);\n".toList

/-- **The text of a module**, with what stands between the quotes of its literals. -/
def layout (template : Option Text) (script id path : Text) (css : Option Text) : Text :=
  template.elim [] templateText ++
  ((script ++ ['\n']) ++
  (((if template.isSome then "__sfc_main.template = __sfc_template;\n".toList else []) ++
    ("__sfc_main.__hmrId = ".toList ++ quoted '"' id ++ ";\n".toList) ++
    ("__sfc_main.__file = ".toList ++ quoted '"' path ++ ";\n".toList) ++
    css.elim [] (styleText id)) ++
  "export default __sfc_main;\n".toList))

theorem line_append (s t u : Text) : line (s ++ t ++ u) = s ++ t ++ line u := List.append_assoc _ _ _

theorem line_semicolon : line [';'] = ";\n".toList := by decide

theorem templateLine_eq (b : Block) :
    templateLine b = templateText ((Text.trim b.content).flatMap Literal.escape) := by
  have hname : "const ".toList ++ templateName ++ " = ".toList = "const __sfc_template = ".toList := by
    decide
  rw [templateLine, hname, line_append, line_semicolon]
  rfl

theorem propertyLine_eq {name value front : Text}
    (h : mainName ++ '.' :: name ++ " = ".toList = front) :
    propertyLine name value = front ++ value ++ ";\n".toList := by
  rw [propertyLine, h, line_append, line_semicolon]

theorem styleLines_eq (id css : Text) :
    styleLines id css = styleText (id.flatMap Literal.escape) (css.flatMap Literal.escape) := by
  have h1 : line ("const ".toList ++ styleName ++ " = document.createElement('style');".toList) =
      "const __sfc_style = document.createElement('style');\n".toList := by decide
  have h2 : styleName ++ ".setAttribute('".toList ++ styleAttribute ++ "', ".toList =
      "__sfc_style.setAttribute('data-minivite-component', ".toList := by decide
  have h3 : line ");".toList = ");\n".toList := by decide
  have h4 : styleName ++ ".textContent = ".toList = "__sfc_style.textContent = ".toList := by decide
  have h5 : line ("document.head.appendChild(".toList ++ styleName ++ ");".toList) =
      "document.head.appendChild(__sfc_style);\n".toList := by decide
  rw [styleLines, h1, h2, h4, h5, line_append, line_append, h3, line_semicolon]
  rfl

/-- What the quotes of the literals of a component's styles hold. -/
def styleRaw? (d : Descriptor) : Option Text :=
  if d.styles = [] then none else some ((joinStyles d.styles).flatMap Literal.escape)

theorem linesAfter_eq (d : Descriptor) (file id : Text) : linesAfter d file id =
    (if d.template.isSome then "__sfc_main.template = __sfc_template;\n".toList else []) ++
    ("__sfc_main.__hmrId = ".toList ++ Literal.quote id ++ ";\n".toList) ++
    ("__sfc_main.__file = ".toList ++ Literal.quote file ++ ";\n".toList) ++
    (styleRaw? d).elim [] (styleText (id.flatMap Literal.escape)) := by
  have hname : propertyLine "template".toList templateName =
      "__sfc_main.template = __sfc_template;\n".toList := by decide
  have hid : propertyLine "__hmrId".toList (Literal.quote id) =
      "__sfc_main.__hmrId = ".toList ++ Literal.quote id ++ ";\n".toList :=
    propertyLine_eq (by decide)
  have hfile : propertyLine "__file".toList (Literal.quote file) =
      "__sfc_main.__file = ".toList ++ Literal.quote file ++ ";\n".toList :=
    propertyLine_eq (by decide)
  have hstyles : (if d.styles.isEmpty then [] else styleLines id (joinStyles d.styles)) =
      (styleRaw? d).elim [] (styleText (id.flatMap Literal.escape)) := by
    rw [styleRaw?]
    by_cases hs : d.styles = []
    · rw [if_pos hs, if_pos (List.isEmpty_iff.mpr hs)]
      rfl
    · rw [if_neg hs, if_neg (mt List.isEmpty_iff.mp hs), styleLines_eq]
      rfl
  refine congrArg₂ (· ++ ·) (congrArg₂ (· ++ ·) (congrArg₂ (· ++ ·) ?_ hid) hfile) hstyles
  exact if_congr Iff.rfl hname rfl

/-- The text of a module whose script is known. -/
theorem eq_layout_of_toModule (h : d.toModule file id = .ok m)
    (hc : compileScript d.script = .ok code) :
    m = layout (d.template.map fun b => (Text.trim b.content).flatMap Literal.escape) code
      (id.flatMap Literal.escape) (file.flatMap Literal.escape) (styleRaw? d) := by
  have htemplate : d.template.elim [] templateLine =
      (d.template.map fun b => (Text.trim b.content).flatMap Literal.escape).elim [] templateText := by
    cases d.template with
    | none => rfl
    | some b => exact templateLine_eq b
  have hexport : exportLine = "export default __sfc_main;\n".toList := by decide
  rw [eq_of_toModule h hc, linesAfter_eq, htemplate, hexport, layout, Option.isSome_map]
  rfl

/-- **The module of a component file** is the line of its template, the code of its script, the lines
that set its properties, those of its styles, and the default export. The literals in it stand for the
trimmed content of the template, the id, the name of the file, and the contents of the styles in order
with a line break between any two. -/
theorem assemble_layout (h : assemble file id source = .ok m) :
    ∃ d code template idRaw path css, parse file source = .ok d ∧
      compileScript d.script = .ok code ∧ m = layout template code idRaw path css ∧
      Option.Rel Encodes template (d.template.map fun b => Text.trim b.content) ∧
      Encodes idRaw id ∧ Encodes path file ∧
      Option.Rel Encodes css
        (if d.styles = [] then none else some (['\n'].intercalate (d.styles.map Block.content))) ∧
      d.styles.Pairwise fun b c => b.stop < c.start := by
  obtain ⟨d, hd, hm⟩ := exists_of_assemble h
  obtain ⟨code, hcode⟩ := exists_code_of_toModule hm
  refine ⟨d, code, _, _, _, _, parse_eq_ok_iff.mpr hd, hcode, eq_layout_of_toModule hm hcode, ?_,
    encodes_flatMap_escape id, encodes_flatMap_escape file, ?_, pairwise_styles hd⟩
  · cases d.template with
    | none => exact .none
    | some b => exact .some (encodes_flatMap_escape _)
  · rw [styleRaw?]
    split
    · exact .none
    · exact .some (encodes_flatMap_escape _)

/-- A component with quotes, a backslash and control characters in its template and styles. -/
def quotedPage : Text :=
  "<style>\n a\x7b\x7d \n</style><template> \"</script>\\\n\x01</template>".toList ++
    "<script>export default 1</script><style>b\"</style>".toList

theorem assemble_layout_quoted : ∃ m template idRaw path css,
    assemble "/\".vue".toList "i".toList quotedPage = .ok m ∧
    m = layout (some template) "const __sfc_main = 1".toList idRaw path (some css) ∧
    Encodes template "\"</script>\\\n\x01".toList ∧ Encodes path "/\".vue".toList ∧
    Encodes css "\n a\x7b\x7d \n\nb\"".toList := by
  have hd : Descriptor.parse quotedPage = .ok
      ⟨some ⟨" \"</script>\\\n\x01".toList, [], 32⟩, some ⟨"export default 1".toList, [], 65⟩,
        [⟨"\n a\x7b\x7d \n".toList, [], 7⟩, ⟨"b\"".toList, [], 97⟩]⟩ := by decide +kernel
  have hm : assemble "/\".vue".toList "i".toList quotedPage = .ok
      (layout (some "\\\"</script>\\\\\\n\\u0001".toList) "const __sfc_main = 1".toList "i".toList
        "/\\\".vue".toList (some "\\n a\x7b\x7d \\n\\nb\\\"".toList)) :=
    (assemble_eq_ok_iff hd).mpr (by decide +kernel)
  obtain ⟨d, code, template, idRaw, path, css, hd', hcode, heq, ht, hi, hp, hc, -⟩ :=
    assemble_layout hm
  obtain rfl := Except.ok.inj (hd.symm.trans (parse_eq_ok_iff.mp hd'))
  obtain rfl : "const __sfc_main = 1".toList = code :=
    Except.ok.inj (((compileScript_bare _ _).trans (by decide +kernel)).symm.trans hcode)
  cases ht with
  | some ht =>
    cases hc with
    | some hc => exact ⟨_, _, _, _, _, hm, heq, ht, hp, hc⟩

end Unbundled.Component
