import Unbundled.Proofs.Import.Declarations

/-! # Sequences of declarations

A source that holds nothing but declarations, each ended by a newline. What the scan reports of it
is compared with what it declares (`declared`). They differ in two ways. A local list leaves the scan
within a clause, and the next declaration is read as the rest of this clause. And a clause ends
early, at a name that is no ASCII word or at an escape in a list that holds a closing brace.

* `scan_source`: what is reported of a sequence.
* `scan_eq_declared_iff`: the sequences of which exactly the declared imports are reported. -/

namespace Unbundled.Import

open Source

variable {m : Reading}

/-! ### Sequences -/

/-- The text of a sequence of declarations. -/
def source (ds : List Declaration) : Text := ds.flatMap fun d => d.text ++ ['\n']

/-- **The imports that a sequence declares**, from byte `n` on. -/
def declared (n : Nat) : List Declaration → List Import
  | [] => []
  | d :: ds => (d.found (some d.kind) n).toList ++ declared (n + Text.bytes d.text + 1) ds

/-- What the scan reports of a sequence that starts at byte `n` and is read as `m` says. -/
def reported (m : Reading) (n : Nat) : List Declaration → List Import
  | [] => []
  | d :: ds =>
    (d.found (d.report m) n).toList ++ reported (d.after m) (n + Text.bytes d.text + 1) ds

/-- A declaration ends with a quote or with a brace. -/
theorem Declaration.exists_last (d : Declaration) :
    ∃ u x, d.text = u ++ [x] ∧ ¬ isSpace x ∧ x ≠ '.' := by
  have hquoted : ∀ (u : Text) (l : Quoted),
      ∃ v x, u ++ l.text = v ++ [x] ∧ ¬ isSpace x ∧ x ≠ '.' := by
    intro u l
    have hq : ¬ isSpace l.quote ∧ l.quote ≠ '.' := by
      rcases isQuote_iff.mp l.isQuote with h | h <;> rw [h] <;> decide
    exact ⟨u ++ l.quote :: l.raw, l.quote, by simp [Quoted.text, quoted], hq⟩
  cases d with
  | importFrom bs gap l => exact hquoted _ l
  | importOnly gap l => exact hquoted _ l
  | exportFrom g gap l => exact hquoted _ l
  | exportAll before after gap l => exact hquoted _ l
  | exportList before l =>
    refine ⟨"export".toList ++ (before.text ++ '\x7b' :: l.text), '\x7d', ?_, by decide, by decide⟩
    rw [Declaration.text_exportList, braces, List.append_assoc, List.append_assoc, List.cons_append]

theorem Declaration.lastSolid?_ne_dot (d : Declaration) (b : Text) :
    lastSolid? (d.text.reverse ++ b) ≠ some '.' := by
  obtain ⟨u, x, hd, hs, hx⟩ := d.exists_last
  rw [hd, List.reverse_append, List.reverse_singleton, List.singleton_append, List.cons_append,
    lastSolid?, List.dropWhile_cons_of_neg hs]
  simpa using hx

theorem readOn_source (ds : List Declaration) (m : Reading) {b : Text}
    (hb : lastSolid? b ≠ some '.') : readOn m ⟨b, source ds⟩ = reported m (Text.bytes b) ds := by
  induction ds generalizing m b with
  | nil =>
    have hend : skipTrivia ⟨b, []⟩ = ⟨b, []⟩ := by rw [skipTrivia, triviaEnd, Cursor.advance_zero]
    cases m with
    | script => exact scanFrom_nil rfl
    | clause kind =>
      have hnil : clause kind ⟨b, []⟩ = (none, ⟨b, []⟩) := by rw [clause_nil (by rw [hend]), hend]
      exact (congrArg resume hnil).trans (scanFrom_nil rfl)
  | cons d ds ih =>
    have hsource : source (d :: ds) = d.text ++ ('\n' :: source ds) := by
      simp [source]
    have hnewline := readOn_gap (m := d.after m) (g := ['\n']) (b := d.text.reverse ++ b)
      (t := source ds) (List.all_eq_true.mp (by decide))
    have hb' : lastSolid? ('\n' :: (d.text.reverse ++ b)) ≠ some '.' :=
      lastSolid?_cons (by decide) (d.lastSolid?_ne_dot b)
    have hbytes : Text.bytes ('\n' :: (d.text.reverse ++ b)) =
        Text.bytes b + Text.bytes d.text + 1 := by
      have hone : Char.utf8Size '\n' = 1 := rfl
      rw [Text.bytes_cons, Text.bytes_append, Text.bytes_reverse, hone]
      omega
    rw [hsource, readOn_declaration d m hb, reported, ← hbytes, ← ih (d.after m) hb']
    exact congrArg _ hnewline

/-- **What is reported of a sequence.** -/
theorem scan_source (ds : List Declaration) : scan (source ds) = reported .script 0 ds :=
  readOn_source ds .script (by decide)

/-! ### What is declared -/

/-- No escape in the list holds a closing brace. -/
def NameList.plain (l : NameList) : Bool := '\x7d' ∉ l.text

/-- The clause goes on after the group. -/
def Group.plain : Group → Bool
  | star _ _ _ x _ => x.plain
  | list _ l _ => l.plain

/-- The scan takes the end of the group for the word `import`. -/
def Group.imports : Group → Bool
  | star _ _ _ x _ => x.imports
  | list _ _ _ => false

def Bindings.plain : Bindings → Bool
  | name _ x _ => x.plain
  | group g => g.plain
  | both _ x _ g => x.plain && g.plain

/-- Some name in the bindings is taken for the word `import`, and the clause that this word opens goes
on to their end. -/
def Bindings.imports : Bindings → Bool
  | name _ x _ => x.imports
  | group g => g.imports
  | both _ x _ g => g.imports || (x.imports && g.plain)

namespace Declaration

/-- The literal of a declaration is reported as declared, where `opened` says that a local list has
left the scan within a clause. -/
def Fits (opened : Bool) : Declaration → Prop
  | importFrom bs _ _ => bs.imports ∨ (opened = false ∧ bs.plain)
  | importOnly _ _ => opened = false
  | exportFrom g _ _ => g.plain
  | exportAll _ _ _ _ | exportList _ _ => True

/-- A local list leaves the scan within a clause. -/
def opens : Declaration → Bool
  | exportList _ l => l.plain
  | importFrom _ _ _ | importOnly _ _ | exportFrom _ _ _ | exportAll _ _ _ _ => false

end Declaration

/-- Every declaration of a sequence fits. -/
def AllFit (opened : Bool) : List Declaration → Prop
  | [] => True
  | d :: ds => d.Fits opened ∧ AllFit d.opens ds

/-- How the scan reads a declaration, where `opened` says that a local list lies before it. -/
def reading (opened : Bool) : Reading := if opened then .clause .reexport else .script

theorem exporting_reading (opened : Bool) : (reading opened).exporting = .clause .reexport := by
  cases opened <;> rfl

theorem after_reading (d : Declaration) (opened : Bool) :
    d.after (reading opened) = reading d.opens := by
  cases d with
  | exportList before l =>
    rw [Declaration.after, exporting_reading, Declaration.opens, NameList.plain, reading,
      Reading.list]
    by_cases h : '\x7d' ∈ l.text <;> simp [h]
  | importFrom => rfl
  | importOnly => rfl
  | exportFrom => rfl
  | exportAll => rfl

theorem kind?_name (x : Name) (m : Reading) (kind : Kind) :
    (m.name x).kind? = some kind ↔
      (x.plain ∧ m.kind? = some kind) ∨ (x.imports ∧ kind = .static) := by
  by_cases hp : x.plain
  · have hi := Name.imports_of_plain hp
    rw [Reading.name, if_pos hp]
    simp [hp, hi]
  · rw [Reading.name, if_neg hp]
    by_cases hi : x.imports
    · simp [hp, hi, Reading.kind?, eq_comm]
    · simp [hp, hi, Reading.kind?]

theorem kind?_group (g : Group) (m : Reading) (kind : Kind) :
    (m.group g).kind? = some kind ↔
      (g.plain ∧ m.kind? = some kind) ∨ (g.imports ∧ kind = .static) := by
  cases g with
  | star before mid sep x after => exact kind?_name x m kind
  | list before l after =>
    by_cases h : '\x7d' ∈ l.text
    · simp [Reading.group, Reading.list, Group.plain, Group.imports, NameList.plain, h, Reading.kind?]
    · simp [Reading.group, Reading.list, Group.plain, Group.imports, NameList.plain, h]

theorem kind?_bindings (bs : Bindings) (m : Reading) :
    (m.bindings bs).kind? = some .static ↔
      bs.imports ∨ (m.kind? = some .static ∧ bs.plain) := by
  cases bs with
  | name before x after =>
    rw [Reading.bindings, kind?_name, Bindings.imports, Bindings.plain]
    tauto
  | group g =>
    rw [Reading.bindings, kind?_group, Bindings.imports, Bindings.plain]
    tauto
  | both before x after g =>
    rw [Reading.bindings, kind?_group, kind?_name, Bindings.imports, Bindings.plain]
    simp only [Bool.or_eq_true, Bool.and_eq_true]
    tauto

theorem kind?_importing (opened : Bool) :
    ((reading opened).word "import".toList).kind? = some .static ↔ opened = false := by
  cases opened <;> decide

/-- A declaration with a literal is reported as declared exactly if it fits. -/
theorem report_reading {d : Declaration} (h : d.literal?.isSome) (opened : Bool) :
    d.report (reading opened) = some d.kind ↔ d.Fits opened := by
  cases d with
  | importFrom bs gap l =>
    rw [Declaration.report, Declaration.kind, Declaration.Fits, kind?_bindings, kind?_importing]
  | importOnly gap l =>
    rw [Declaration.report, Declaration.kind, Declaration.Fits]
    cases opened <;> decide
  | exportFrom g gap l =>
    rw [Declaration.report, Declaration.kind, Declaration.Fits, kind?_group, exporting_reading]
    simp [Reading.kind?]
  | exportAll before after gap l =>
    rw [Declaration.report, Declaration.kind, Declaration.Fits, exporting_reading]
    simp [Reading.kind?]
  | exportList before l => exact absurd h Bool.false_ne_true

theorem found_none (n : Nat) (d : Declaration) : d.found none n = none := by
  unfold Declaration.found
  cases d.literal? <;> rfl

theorem found_eq {d : Declaration} {l : Quoted} (h : d.literal? = some l) (kind : Kind) (n : Nat) :
    d.found (some kind) n = some (specifier kind (n + Text.bytes d.head) l.quote l.raw) := by
  rw [Declaration.found, h]
  rfl

theorem le_start_of_mem_reported {i : Import} {n : Nat} {ds : List Declaration}
    (h : i ∈ reported m n ds) : n ≤ i.start := by
  induction ds generalizing m n with
  | nil => exact absurd h List.not_mem_nil
  | cons d ds ih =>
    rw [reported, List.mem_append, Option.mem_toList] at h
    rcases h with h | h
    · rw [Declaration.found] at h
      obtain ⟨l, -, h⟩ := Option.bind_eq_some_iff.mp h
      obtain ⟨kind, -, rfl⟩ := Option.map_eq_some_iff.mp h
      exact Nat.le_add_right _ _
    · have := ih h
      omega

/-- The imports after a literal that is not reported cannot stand for it, since they start later. -/
theorem reported_ne {n : Nat} {d : Declaration} {ds : List Declaration} {l : Quoted} {kind : Kind}
    {is : List Import} :
    reported m (n + Text.bytes d.text + 1) ds ≠
      specifier kind (n + Text.bytes d.head) l.quote l.raw :: is := by
  intro h
  have hle := le_start_of_mem_reported (h ▸ List.mem_cons_self)
  have htext : Text.bytes d.head ≤ Text.bytes d.text := by
    rw [Declaration.text, Text.bytes_append]
    exact Nat.le_add_right _ _
  simp only [specifier] at hle
  omega

theorem reported_eq_declared_iff (ds : List Declaration) (opened : Bool) (n : Nat) :
    reported (reading opened) n ds = declared n ds ↔ AllFit opened ds := by
  induction ds generalizing opened n with
  | nil => exact iff_of_true rfl trivial
  | cons d ds ih =>
    rw [reported, declared, AllFit, ← ih d.opens (n + Text.bytes d.text + 1), after_reading]
    cases hl : d.literal? with
    | none =>
      have hfits : d.Fits opened := by
        cases d with
        | exportList => exact trivial
        | importFrom | importOnly | exportFrom | exportAll =>
          exact absurd hl (Option.some_ne_none _)
      have hfound : ∀ kind?, d.found kind? n = none := by
        intro kind?
        rw [Declaration.found, hl]
        rfl
      rw [hfound, hfound]
      simp [hfits]
    | some l =>
      rw [← report_reading (by rw [hl]; rfl), found_eq hl]
      cases hr : d.report (reading opened) with
      | none =>
        rw [found_none]
        refine iff_of_false reported_ne ?_
        simp
      | some kind =>
        rw [found_eq hl]
        simp [specifier]

/-- **When exactly the declared imports are reported.** Every declaration fits: the names before a
`from` are ASCII words, no escape in a list holds a closing brace, and no import follows a local list.
A name whose last word is `import` opens a clause of its own and makes up for what precedes it. -/
theorem scan_eq_declared_iff (ds : List Declaration) :
    scan (source ds) = declared 0 ds ↔ AllFit false ds := by
  rw [scan_source]
  exact reported_eq_declared_iff ds false 0

/-- A local list takes the import after it for the rest of its clause, and nothing is reported. -/
theorem exists_misread : ∃ ds, source ds = "export \x7b a \x7d\nimport \x27x\x27\n".toList ∧
    declared 0 ds = [⟨20, 23, ['x'], .static⟩] ∧ scan (source ds) ≠ declared 0 ds := by
  refine ⟨[.exportList ⟨[' '], by decide⟩ ⟨[' ', 'a', ' '], ?_⟩,
    .importOnly ⟨[' '], by decide⟩ ⟨'\x27', ['x'], by decide, ?_⟩], ?_, ?_, ?_⟩
  · exact .char (by decide) (.char (by decide) (.char (by decide) .nil))
  · exact ⟨by decide, by decide, by decide⟩
  · decide +kernel
  · decide +kernel
  · decide +kernel

end Unbundled.Import
