import Unbundled.Component.Module
import Unbundled.Proofs.Component.Silent

/-! # The default export of a component module

A component module is a line for the template, the lines of its script, lines that set properties and
styles, and last the line that exports the component. All but the script is still text, so whether
the last line is the only default export of the module depends on the script alone
(`exportsOnce_of_silent`).

* `ExportsOnce`: the last line of a module is its only default export.
* `Closed`: a lexeme starts where a text ends, whatever follows.
* `exportsOnce_of_sealed`: it suffices that the script is closed and has no default export. -/

namespace Unbundled.Component

open Source Import

/-- **The last line of a module is its only default export.** -/
def ExportsOnce (m : Text) : Prop :=
  ∃ body, m = body ++ exportLine ∧ ∀ n, ExportsAt m n ↔ n = Text.bytes body

/-- A lexeme starts where the text ends, whatever follows. -/
def Closed (s : Text) : Prop := ∀ t, Text.bytes s ∈ boundaries (s ++ t)

/-- The lines of a script are closed, and they have no default export. -/
structure Sealed (code : Text) : Prop where
  closed : Closed (line code)
  none : ∀ n, ¬ ExportsAt (line code) n

variable {b code file id m s t u v : Text} {d : Descriptor} {c : Cursor}

/-! ### The lines around the script -/

theorem Still.line (h : Still u) : Still (line u) := h.append (still_of_mute (by decide +kernel))

theorem getLast?_line (u v : Text) : (u ++ line v).getLast? = some '\n' := by
  rw [Component.line, ← List.append_assoc, List.getLast?_concat]

theorem still_propertyLine {name value : Text} (hn : mute (mainName ++ '.' :: name ++ " = ".toList))
    (hv : Still value) : Still (propertyLine name value) :=
  (((still_of_mute hn).append hv).append (still_of_mute (by decide +kernel))).line

/-- The line that declares a template. -/
def templateLine (b : Block) : Text :=
  line ("const ".toList ++ templateName ++ " = ".toList ++ Literal.quote (Text.trim b.content) ++
    [';'])

/-- The line of a template depends on its content only. -/
theorem line_of_compileTemplate {b : Block} (h : compileTemplate b = .ok u) :
    line u = templateLine b := by
  unfold compileTemplate at h
  cases he : checkExternal "template".toList b with
  | error cause =>
    rw [he] at h
    exact absurd h (by simp [bind, Except.bind])
  | ok _ =>
    cases hl : checkLanguage "template".toList ["html".toList] b with
    | error cause =>
      rw [he, hl] at h
      exact absurd h (by simp [bind, Except.bind])
    | ok _ =>
      rw [he, hl] at h
      exact congrArg line (Except.ok.inj h).symm

theorem still_templateLine (b : Block) : Still (templateLine b) := by
  have hname : mute ("const ".toList ++ templateName ++ " = ".toList) := by decide +kernel
  have hend : mute [';'] := by decide +kernel
  exact (((still_of_mute hname).append (still_quote _)).append (still_of_mute hend)).line

theorem still_styleLines (id css : Text) : Still (styleLines id css) := by
  have h1 : mute ("const ".toList ++ styleName ++ " = document.createElement('style');".toList) := by
    decide +kernel
  have h2 : mute (styleName ++ ".setAttribute('".toList ++ styleAttribute ++ "', ".toList) := by
    decide +kernel
  have h3 : mute (styleName ++ ".textContent = ".toList) := by decide +kernel
  have h4 : mute ("document.head.appendChild(".toList ++ styleName ++ ");".toList) := by
    decide +kernel
  have hid := ((still_of_mute h2).append (still_quote id)).append
    (still_of_mute (w := ");".toList) (by decide +kernel))
  have hcss := ((still_of_mute h3).append (still_quote css)).append
    (still_of_mute (w := [';']) (by decide +kernel))
  exact (((still_of_mute h1).line.append hid.line).append hcss.line).append (still_of_mute h4).line

/-- The lines of a module between its script and its last line. -/
def linesAfter (d : Descriptor) (file id : Text) : Text :=
  (if d.template.isSome then propertyLine "template".toList templateName else []) ++
    propertyLine "__hmrId".toList (Literal.quote id) ++
    propertyLine "__file".toList (Literal.quote file) ++
    (if d.styles.isEmpty then [] else styleLines id (joinStyles d.styles))

theorem still_linesAfter (d : Descriptor) (file id : Text) : Still (linesAfter d file id) := by
  have hid : Still (propertyLine "__hmrId".toList (Literal.quote id)) :=
    still_propertyLine (by decide +kernel) (still_quote id)
  have hfile : Still (propertyLine "__file".toList (Literal.quote file)) :=
    still_propertyLine (by decide +kernel) (still_quote file)
  have hname : Still (propertyLine "template".toList templateName) :=
    (still_of_mute (by decide +kernel)).line
  have htemplate : Still (if d.template.isSome then propertyLine "template".toList templateName
      else []) := by
    split
    · exact hname
    · exact still_nil
  have hstyles : Still (if d.styles.isEmpty then [] else styleLines id (joinStyles d.styles)) := by
    split
    · exact still_nil
    · exact still_styleLines id _
  exact ((htemplate.append hid).append hfile).append hstyles

theorem head?_propertyLine (name value t : Text) :
    (propertyLine name value ++ t).head? = some '_' := rfl

theorem head?_linesAfter (d : Descriptor) (file id t : Text) :
    (linesAfter d file id ++ t).head? = some '_' := by
  unfold linesAfter
  split
  · rw [List.append_assoc, List.append_assoc, List.append_assoc, head?_propertyLine]
  · rw [List.nil_append, List.append_assoc, List.append_assoc, head?_propertyLine]

theorem getLast?_linesAfter (d : Descriptor) (file id : Text) :
    (linesAfter d file id).getLast? = some '\n' := by
  unfold linesAfter
  by_cases hs : d.styles.isEmpty
  · rw [if_pos hs, List.append_nil]
    exact getLast?_line _ _
  · rw [if_neg hs, styleLines, ← List.append_assoc, ← List.append_assoc, ← List.append_assoc]
    exact getLast?_line _ _

/-- **The parts of a module**: the line of the template, the lines of the script, those after it and
the last line. -/
theorem eq_of_toModule (h : d.toModule file id = .ok m) (hc : compileScript d.script = .ok code) :
    m = d.template.elim [] templateLine ++ (line code ++ (linesAfter d file id ++ exportLine)) := by
  unfold Descriptor.toModule at h
  rw [hc] at h
  unfold linesAfter
  cases ht : d.template with
  | none =>
    rw [ht] at h
    obtain rfl := Except.ok.inj h
    simp
  | some b =>
    rw [ht] at h
    cases hb : compileTemplate b with
    | error cause =>
      have hm : (some b).mapM compileTemplate = .error cause := by rw [Option.mapM_some, hb]; rfl
      rw [hm] at h
      exact absurd h (by simp [bind, Except.bind])
    | ok u =>
      have hm : (some b).mapM compileTemplate = .ok (some u) := by rw [Option.mapM_some, hb]; rfl
      rw [hm] at h
      obtain rfl := Except.ok.inj h
      simp [line_of_compileTemplate hb]

theorem exists_of_toModule (h : d.toModule file id = .ok m) (hc : compileScript d.script = .ok code) :
    ∃ head, m = head ++ (line code ++ (linesAfter d file id ++ exportLine)) ∧ Still head ∧
      Alike [] head.reverse := by
  refine ⟨_, eq_of_toModule h hc, ?_⟩
  cases d.template with
  | none => exact ⟨still_nil, Alike.refl []⟩
  | some b =>
    refine ⟨still_templateLine b, ?_⟩
    rw [Option.elim_some, templateLine, line, List.reverse_append, List.reverse_append]
    exact alike_statement _

/-! ### The default export of a module -/

/-- The last line of a module starts with a default export, and there is no other in it. -/
theorem defaultExportsFrom_exportLine {b : Text} (hb : NoWord b) :
    defaultExportsFrom ⟨b, exportLine⟩ = [Text.bytes b] := by
  have hline : exportLine = "export".toList ++ " default __sfc_main;\n".toList := by decide
  have hgap : exportLine = exportWords [' '] ++ " __sfc_main;\n".toList := by decide
  have hdefault : AtDefault ⟨b, exportLine⟩ :=
    atDefault_iff.mpr ⟨[' '], _, hgap, by decide, List.all_eq_true.mp (by decide), hb,
      noWord_iff.mpr (by decide)⟩
  obtain ⟨x, t, hx, hnext⟩ := @advance_word ⟨b, exportLine⟩ " default __sfc_main;\n".toList
    "export".toList ⟨by decide, by decide⟩ (noWord_iff.mpr (by decide)) hline
  have hstill : Still " default __sfc_main;\n".toList := still_of_mute (by decide +kernel)
  have hrest := (hstill ("export".toList.reverse ++ b) []).defaultExportsFrom_eq
  rw [List.append_nil, @defaultExportsFrom_nil ⟨_, []⟩ rfl] at hrest
  rw [defaultExportsFrom_cons hx, if_pos hdefault, hnext, hrest]
  rfl

/-- **A script that is passed silently** makes modules whose last line is their only default
export. -/
theorem exportsOnce_of_silent (hc : compileScript d.script = .ok code)
    (hs : ∀ t, t.head? = some '_' →
      Silent (Cursor.start (line code ++ t)) ⟨(line code).reverse, t⟩)
    (h : d.toModule file id = .ok m) : ExportsOnce m := by
  obtain ⟨head, rfl, hhead, halike⟩ := exists_of_toModule h hc
  have hlast := getLast?_linesAfter d file id
  have hnext : Silent ⟨[], line code ++ (linesAfter d file id ++ exportLine)⟩ _ :=
    hs _ (head?_linesAfter d file id exportLine)
  have hstill := still_linesAfter d file id
  generalize linesAfter d file id = tail at *
  refine ⟨head ++ (line code ++ tail), by simp, fun n => ?_⟩
  have hbefore := hhead [] (line code ++ (tail ++ exportLine))
  rw [List.append_nil] at hbefore
  have hscript : Silent ⟨head.reverse, line code ++ (tail ++ exportLine)⟩
      ⟨(line code).reverse ++ head.reverse, tail ++ exportLine⟩ :=
    Silent.alike (p := []) halike (by rwa [List.append_nil, List.append_nil])
  have hall : Silent _ _ := hbefore.trans (hscript.trans (hstill _ exportLine))
  rw [← List.reverse_append, ← List.reverse_append, List.append_assoc] at hall
  have hbody : NoWord (head ++ (line code ++ tail)).reverse := by
    obtain ⟨t, rfl⟩ := List.getLast?_eq_some_iff.mp hlast
    rw [List.reverse_append, List.reverse_append, List.reverse_append]
    exact noWord_cons (by decide) _
  rw [exportsAt_iff_mem, defaultExports, Cursor.start, hall.defaultExportsFrom_eq,
    defaultExportsFrom_exportLine hbody, List.mem_singleton, Text.bytes_reverse]

/-! ### Sealed scripts -/

theorem walk_of_bytes_mem (h : Text.bytes s ∈ boundaries (s ++ t)) :
    Walk (Cursor.start (s ++ t)) [] ⟨s.reverse, t⟩ := by
  obtain ⟨d, hw, hd⟩ := mem_boundaries_iff.mp h
  have hwhole := hw.onward.whole_eq
  rw [Cursor.whole_start] at hwhole
  obtain rfl : d = ⟨s.reverse, t⟩ := by
    refine Cursor.eq_of_offset_eq ?_ ?_
    · rw [hwhole, Cursor.whole, List.reverse_reverse]
    · rw [hd, Cursor.offset, Text.bytes_reverse]
  exact hw

theorem Closed.walk (h : Closed s) (t : Text) : Walk (Cursor.start (s ++ t)) [] ⟨s.reverse, t⟩ :=
  walk_of_bytes_mem (h t)

/-- A default export in the front of a text is one of the front, if none reaches into the rest. -/
theorem exportsAt_front (ht : Apart t) (hw : Walk (Cursor.start (s ++ t)) [] c)
    (hle : t.length ≤ c.ahead.length) (hc : AtDefault c) : ExportsAt s c.offset := by
  obtain ⟨v, hv⟩ := exists_ahead_of_onward hw.onward hle
  rw [hv] at hw hc
  exact exportsAt_iff_walk.mpr ⟨⟨c.behind, v⟩, walk_front hw, ht c.behind v hc, rfl⟩

theorem Sealed.silent (h : Sealed code) (ht : Apart t) :
    Silent (Cursor.start (line code ++ t)) ⟨(line code).reverse, t⟩ :=
  run_of_walk (h.closed.walk t) fun _ hw hlt hc =>
    h.none _ (exportsAt_front ht hw (Nat.le_of_lt hlt) hc)

/-- **A sealed script** makes modules whose last line is their only default export. -/
theorem exportsOnce_of_sealed (hc : compileScript d.script = .ok code) (hs : Sealed code)
    (h : d.toModule file id = .ok m) : ExportsOnce m :=
  exportsOnce_of_silent hc (fun _ ht => hs.silent (apart_of_head? ht (by decide) (by decide))) h

end Unbundled.Component
