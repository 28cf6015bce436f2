import Unbundled.Proofs.Chain.Direct
import Unbundled.Proofs.Component.Layout
import Unbundled.Proofs.Source.Splits

/-! # Components that do not compile

Reading a component, finding its blocks and compiling them can fail, each for its own reasons
(`Component.Rejects`, `Component.Fails`). All failures are answered alike, with a script that reports
the failure in the console of the browser. Its text is fixed but for one literal, and the literal is
of the kind that nothing in it can end (`Component.Encodes`).

* `Component.compileFile_eq_error_iff`: the failures of a component file.
* `Component.lexemes_reportText`: the script that reports a failure, lexeme by lexeme.
* `handle_componentStage_of_fails`: the answer to a request for a component that fails. -/

namespace Unbundled

open Source

variable {σ : Type} {disk : Disk} {settings : ChainSettings} {place : Path} {c : Context}
  {next : Handler σ} {log : σ}

namespace Component

variable {d : Descriptor} {cause : Cause} {fault : Unbundled.Fault} {file id path raw source : Text}

/-! ### Failures -/

/-- **Why a component file gives no module**: its blocks cannot be told apart, its template cannot be
compiled, or its template can but its script cannot. -/
inductive Rejects (source : Text) : Cause → Prop
  | parse {cause : Cause} : Descriptor.parse source = .error cause → Rejects source cause
  | template {d : Descriptor} {b : Block} {cause : Cause} : Descriptor.parse source = .ok d →
      d.template = some b → compileTemplate b = .error cause → Rejects source cause
  | script {d : Descriptor} {cause : Cause} : Descriptor.parse source = .ok d →
      (∀ b, d.template = some b → ∃ code, compileTemplate b = .ok code) →
      compileScript d.script = .error cause → Rejects source cause

/-- **The failures to compile a component**: its file cannot be read, or gives no module. -/
inductive Fails (disk : Disk) (place : Path) (path : Text) : Unbundled.Fault → Prop
  | read {cause : Disk.Fault} : disk.readText place = .error cause →
      Fails disk place path (.read place cause)
  | compile {source : Text} {cause : Cause} : disk.readText place = .ok source →
      Rejects source cause → Fails disk place path (.component ⟨path, cause⟩)

theorem bind_eq_error_iff {ε α β : Type} {x : Except ε α} {f : α → Except ε β} {e : ε} :
    (x >>= f) = .error e ↔ x = .error e ∨ ∃ a, x = .ok a ∧ f a = .error e := by
  cases x with
  | error e' => simp [bind, Except.bind]
  | ok a => simp [bind, Except.bind]

theorem mapError_eq_error_iff {ε ε' α : Type} {x : Except ε α} {f : ε → ε'} {e : ε'} :
    x.mapError f = .error e ↔ ∃ a, x = .error a ∧ f a = e := by
  cases x with
  | error a => simp [Except.mapError]
  | ok a => simp [Except.mapError]

theorem mapM_compileTemplate_eq_error_iff {template : Option Block} :
    template.mapM compileTemplate = .error cause ↔
      ∃ b, template = some b ∧ compileTemplate b = .error cause := by
  cases template with
  | none => exact iff_of_false (by simp [pure, Except.pure]) (by simp)
  | some b =>
    rw [Option.mapM_some]
    cases hb : compileTemplate b with
    | error cause' => simp [hb, Functor.map, Except.map]
    | ok code => simp [hb, Functor.map, Except.map]

theorem exists_mapM_compileTemplate_iff {template : Option Block} :
    (∃ code, template.mapM compileTemplate = .ok code) ↔
      ∀ b, template = some b → ∃ code, compileTemplate b = .ok code := by
  cases template with
  | none => exact iff_of_true ⟨none, rfl⟩ (by simp)
  | some b =>
    rw [Option.mapM_some]
    cases hb : compileTemplate b with
    | error cause => simp [hb, Functor.map, Except.map]
    | ok code => simp [hb, Functor.map, Except.map]

theorem toModule_eq_error_iff : d.toModule file id = .error cause ↔
    (∃ b, d.template = some b ∧ compileTemplate b = .error cause) ∨
      (∀ b, d.template = some b → ∃ code, compileTemplate b = .ok code) ∧
        compileScript d.script = .error cause := by
  rw [Descriptor.toModule, bind_eq_error_iff, mapM_compileTemplate_eq_error_iff,
    ← exists_mapM_compileTemplate_iff, ← exists_and_right]
  refine or_congr_right (exists_congr fun code => and_congr_right fun _ => ?_)
  rw [bind_eq_error_iff]
  refine or_iff_left ?_
  rintro ⟨script, -, h⟩
  cases h

theorem rejects_iff : Rejects source cause ↔ Descriptor.parse source = .error cause ∨
    ∃ d, Descriptor.parse source = .ok d ∧ d.toModule file id = .error cause := by
  constructor
  · rintro (hp | ⟨hd, hb, ht⟩ | ⟨hd, ht, hs⟩)
    · exact .inl hp
    · exact .inr ⟨_, hd, toModule_eq_error_iff.mpr (.inl ⟨_, hb, ht⟩)⟩
    · exact .inr ⟨_, hd, toModule_eq_error_iff.mpr (.inr ⟨ht, hs⟩)⟩
  · rintro (hp | ⟨d, hd, hm⟩)
    · exact .parse hp
    · rcases toModule_eq_error_iff.mp hm with ⟨b, hb, ht⟩ | ⟨ht, hs⟩
      · exact .template hd hb ht
      · exact .script hd ht hs

theorem assemble_eq_error_iff {fault : Fault} : assemble file id source = .error fault ↔
    ∃ cause, Rejects source cause ∧ ⟨file, cause⟩ = fault := by
  rw [assemble, mapError_eq_error_iff]
  refine exists_congr fun cause => and_congr_left fun _ => ?_
  rw [rejects_iff]
  exact bind_eq_error_iff

/-- **What can fail about a component file.** -/
theorem compileFile_eq_error_iff :
    compileFile disk place path = .error fault ↔ Fails disk place path fault := by
  unfold compileFile
  cases hr : disk.readText place with
  | error cause =>
    constructor
    · intro h
      obtain rfl := Except.error.inj h
      exact .read hr
    · rintro (h | ⟨h, -⟩)
      · rw [Except.error.inj (hr.symm.trans h)]
      · exact absurd (hr.symm.trans h) (by simp)
  | ok source =>
    dsimp only
    rw [mapError_eq_error_iff]
    constructor
    · rintro ⟨fault', ha, rfl⟩
      obtain ⟨cause, hrejects, rfl⟩ := assemble_eq_error_iff.mp ha
      exact .compile hr hrejects
    · rintro (h | ⟨h, hrejects⟩)
      · exact absurd (hr.symm.trans h) (by simp)
      · obtain rfl := Except.ok.inj (hr.symm.trans h)
        exact ⟨_, assemble_eq_error_iff.mpr ⟨_, hrejects, rfl⟩, rfl⟩

/-! ### Reports -/

/-- The script that reports a failure, with what stands between the quotes of its literal. -/
def reportText (raw : Text) : Text :=
  "// component compilation failed\n".toList ++
    ("console.error(".toList ++ quoted '"' raw ++ ");\n".toList)

theorem failureModule_eq (message : Text) :
    failureModule message = reportText (message.flatMap Literal.escape) := by
  have hfirst : line "// component compilation failed".toList =
      "// component compilation failed\n".toList := by decide
  have hend : line ");".toList = ");\n".toList := by decide
  rw [failureModule, hfirst, line_append, hend]
  rfl

/-- The lexemes of a report: a comment, and a call with one literal. -/
def reportLexemes (raw : Text) : List (Kind × Text) :=
  [(.comment, "// component compilation failed\n".toList), (.word, "console".toList),
    (.other, ['.']), (.word, "error".toList), (.other, ['(']), (.string, quoted '"' raw),
    (.other, [')']), (.other, [';']), (.other, ['\n'])]

/-- **A report is a comment and a call with one literal**, whatever the literal stands for. -/
theorem lexemes_reportText (h : Inside '"' raw) :
    lexemes [] (reportText raw) = reportLexemes raw := by
  have hcomment : "// component compilation failed\n".toList =
      '/' :: '/' :: " component compilation failed".toList ++ ['\n'] := by decide
  have hcall : "console.error(".toList = "console".toList ++ ('.' :: ("error".toList ++ ['('])) := by
    decide
  have hend : ");\n".toList = [')', ';', '\n'] := by decide
  have hconsole : IsWord "console".toList := ⟨by decide, by decide⟩
  have herror : IsWord "error".toList := ⟨by decide, by decide⟩
  have hline : '\n' ∉ " component compilation failed".toList := by decide
  have heq : reportText raw = '/' :: '/' :: " component compilation failed".toList ++ '\n' ::
      ("console".toList ++ '.' :: ("error".toList ++ '(' :: (quoted '"' raw ++
        [')', ';', '\n']))) := by
    refine (congrArg₂ (· ++ ·) hcomment (congrArg₂ (fun s t => s ++ quoted '"' raw ++ t) hcall
      hend)).trans ?_
    simp only [List.append_assoc, List.cons_append, List.nil_append]
  rw [heq, lexemes_comment hline, lexemes_word hconsole (noWord_cons (by decide) _),
    lexemes_plain (by decide), lexemes_word herror (noWord_cons (by decide) _),
    lexemes_plain (by decide), lexemes_quoted (by decide) h, lexemes_plain (by decide),
    lexemes_plain (by decide), lexemes_plain (by decide), lexemes, ← hcomment]
  rfl

theorem count_reportText {value : Text} (h : Encodes raw value) :
    (reportText raw).count '\n' = 2 := by
  have hfirst : ("// component compilation failed\n".toList).count '\n' = 1 := by decide
  have hcall : ("console.error(".toList).count '\n' = 0 := by decide
  have hend : (");\n".toList).count '\n' = 1 := by decide
  have hquoted := List.count_eq_zero_of_not_mem h.newline_not_mem
  have hsum {s t u v : Text} (hs : s.count '\n' = 1) (ht : t.count '\n' = 0) (hu : u.count '\n' = 0)
      (hv : v.count '\n' = 1) : (s ++ (t ++ u ++ v)).count '\n' = 2 := by
    rw [List.count_append, List.count_append, List.count_append, hs, ht, hu, hv]
  exact hsum hfirst hcall hquoted hend

end Component

/-! ### The answer -/

/-- **A component that fails is answered with a report.** If the path of a request ends like that of a
component and leads to a file, and the file cannot be read, taken apart or compiled, then the stage
answers by itself, whatever comes behind it. The answer is a script of two lines, a comment and a call
of `console.error` with one literal, and the literal stands for the wording of the failure. -/
theorem handle_componentStage_of_fails {fault : Fault} (hs : Text.endsWith c.path componentSuffix)
    (hp : Url.toPath? settings.root c.path = some place) (hf : disk.isFile place)
    (h : Component.Fails disk place c.path fault) :
    ∃ raw, Component.Encodes raw fault.message ∧
      (componentStage disk settings).handle next c log =
        ⟨.done, { c with
          status := 500
          contentType := some ContentType.javascript
          body := some (.text (Component.reportText raw)) }, log⟩ ∧
      lexemes [] (Component.reportText raw) = Component.reportLexemes raw ∧
      (Component.reportText raw).count '\n' = 2 := by
  have hraw := Component.encodes_flatMap_escape fault.message
  have hrequested : requestedFile? disk settings.root c.path = some place := by
    rw [requestedFile?, hp]
    exact if_pos hf
  refine ⟨_, hraw, ?_, Component.lexemes_reportText hraw.inside, Component.count_reportText hraw⟩
  rw [handle_componentStage hrequested (routeOf_eq_component_iff.mpr hs), answerComponent,
    Component.compileFile_eq_error_iff.mpr h]
  dsimp only
  rw [Component.failureModule_eq, Context.fail]

/-- A project with a component whose name and content would end a literal, a call and a line. -/
def hostile : Disk where
  top := .folder [("app".toList, .folder [("\");a(\".vue".toList,
    .file (Text.encode "<template src='\");\nb(\"\\'></template>".toList))])]
  workingFolder := []
  library := .silent

theorem handle_componentStage_of_fails_hostile : ∃ raw,
    Component.Encodes raw
      "/\");a(\".vue: <template src=\"\");\nb(\"\\\"> is not supported".toList ∧
    (componentStage hostile ⟨⟨"app".toList⟩, false⟩).handle (runStages [])
        (Context.ofRequest "/\");a(\".vue".toList) () =
      ⟨.done, ⟨"/\");a(\".vue".toList, 500, some ContentType.javascript,
        some (.text (Component.reportText raw))⟩, ()⟩ := by
  have hr : hostile.readText ⟨"app/\");a(\".vue".toList⟩ =
      .ok "<template src='\");\nb(\"\\'></template>".toList := by decide +kernel
  have hd : Component.Descriptor.parse "<template src='\");\nb(\"\\'></template>".toList =
      .ok ⟨some ⟨[], "src='\");\nb(\"\\'".toList, 25⟩, none, []⟩ := by decide +kernel
  have hfails : Component.Fails hostile ⟨"app/\");a(\".vue".toList⟩ "/\");a(\".vue".toList
      (.component ⟨"/\");a(\".vue".toList, .external "template".toList "\");\nb(\"\\".toList⟩) :=
    .compile hr (.template hd rfl (by decide +kernel))
  obtain ⟨raw, hraw, hanswer, -⟩ :=
    @handle_componentStage_of_fails Unit hostile ⟨⟨"app".toList⟩, false⟩ _
      (Context.ofRequest "/\");a(\".vue".toList) (runStages []) () _ (by decide +kernel)
      (by decide +kernel) (by decide +kernel) hfails
  exact ⟨raw, hraw, hanswer⟩

end Unbundled
