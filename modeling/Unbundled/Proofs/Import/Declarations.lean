import Unbundled.Proofs.Import.Names

/-! # Declarations

The declarations of a module that name other modules or export local names: their parts, their
texts, and what the scan makes of one of them, however it reads the text before. A part is passed if
it takes the scan from one way to read to another (`Passes`); the parts of a declaration are passed
one after the other, up to its literal.

* `passes_group`, `passes_bindings`: what stands between a keyword and `from`.
* `readOn_declaration`: what is reported of a declaration, and how the scan reads on after it. -/

namespace Unbundled.Import

open Source

/-! ### Declarations -/

/-- White space between two tokens. -/
structure Gap where
  text : Text
  isBlank : text.all isSpace

/-- White space that keeps two words apart. -/
structure Space extends Gap where
  ne_nil : text ≠ []

/-- A string literal. -/
structure Quoted where
  quote : Char
  raw : Text
  isQuote : isQuote quote
  inside : Inside quote raw

/-- The names between two braces. -/
structure NameList where
  text : Text
  spelled : Spelled isSeparator text

/-- Names that come from a module together. -/
inductive Group
  /-- `* as x` -/
  | star (before mid : Gap) (sep : Space) (x : Name) (after : Space)
  /-- A brace list. -/
  | list (before : Gap) (l : NameList) (after : Gap)

/-- What an import binds. -/
inductive Bindings
  | name (before : Space) (x : Name) (after : Space)
  | group (g : Group)
  /-- A name and a group, with a comma between them. -/
  | both (before : Space) (x : Name) (after : Gap) (g : Group)

inductive Declaration
  | importFrom (bs : Bindings) (gap : Gap) (l : Quoted)
  | importOnly (gap : Gap) (l : Quoted)
  | exportFrom (g : Group) (gap : Gap) (l : Quoted)
  /-- `export * from l` -/
  | exportAll (before after gap : Gap) (l : Quoted)
  /-- A list of local names. -/
  | exportList (before : Gap) (l : NameList)

theorem Gap.blank (g : Gap) : ∀ x ∈ g.text, isSpace x := List.all_eq_true.mp g.isBlank

def Quoted.text (l : Quoted) : Text := quoted l.quote l.raw

def Group.text : Group → Text
  | star before mid sep x after =>
    before.text ++ ('*' :: mid.text ++ ("as".toList ++ (sep.text ++ (x.text ++ after.text))))
  | list before l after => before.text ++ (braces l.text ++ after.text)

def Bindings.text : Bindings → Text
  | name before x after => before.text ++ (x.text ++ after.text)
  | group g => g.text
  | both before x after g => before.text ++ (x.text ++ (after.text ++ ',' :: g.text))

namespace Declaration

/-- The text before the literal. -/
def head : Declaration → Text
  | importFrom bs gap _ => "import".toList ++ bs.text ++ ("from".toList ++ gap.text)
  | importOnly gap _ => "import".toList ++ gap.text
  | exportFrom g gap _ => "export".toList ++ g.text ++ ("from".toList ++ gap.text)
  | exportAll before after gap _ =>
    "export".toList ++ (before.text ++ '*' :: after.text) ++ ("from".toList ++ gap.text)
  | exportList before l => "export".toList ++ (before.text ++ braces l.text)

def literal? : Declaration → Option Quoted
  | importFrom _ _ l | importOnly _ l | exportFrom _ _ l | exportAll _ _ _ l => some l
  | exportList _ _ => none

def kind : Declaration → Kind
  | importFrom _ _ _ | importOnly _ _ => .static
  | exportFrom _ _ _ | exportAll _ _ _ _ | exportList _ _ => .reexport

def text (d : Declaration) : Text := d.head ++ (d.literal?.map Quoted.text).getD []

theorem text_exportList (before : Gap) (l : NameList) :
    (exportList before l).text = "export".toList ++ (before.text ++ braces l.text) :=
  List.append_nil _

/-- The literal of a declaration that starts at byte `n`, as an import of the kind `kind?`. -/
def found (kind? : Option Kind) (n : Nat) (d : Declaration) : Option Import :=
  d.literal?.bind fun l => kind?.map fun kind =>
    specifier kind (n + Text.bytes d.head) l.quote l.raw

end Declaration

/-! ### Passing texts -/

variable {m m' k : Reading} {t u w : Text} {x : Char}

/-- Where the text `w` lies before `t`, and no dot behind, it takes the scan from one way to read to
another. -/
def Passes (m m' : Reading) (w t : Text) : Prop :=
  '.' ∉ w ∧ ∀ b, lastSolid? b ≠ some '.' → readOn m ⟨b, w ++ t⟩ = readOn m' ⟨w.reverse ++ b, t⟩

theorem Passes.append (h : Passes m m' w (u ++ t)) (h' : Passes m' k u t) :
    Passes m k (w ++ u) t := by
  refine ⟨?_, ?_⟩
  · rw [List.mem_append, not_or]
    exact ⟨h.1, h'.1⟩
  · intro b hb
    rw [List.append_assoc, h.2 b hb, h'.2 _ (lastSolid?_append h.1 hb), List.reverse_append,
      List.append_assoc]

theorem passes_gap (g : Gap) (m : Reading) (t : Text) : Passes m m g.text t := by
  refine ⟨?_, fun b _ => readOn_gap g.blank⟩
  intro h
  exact absurd (g.blank _ h) (by decide)

theorem passes_mark (hx : (x = '*' || x = ',') = true) (m : Reading) (t : Text) :
    Passes m m [x] t := by
  refine ⟨?_, fun b _ => readOn_mark hx⟩
  simp only [Bool.or_eq_true, decide_eq_true_eq] at hx
  rcases hx with rfl | rfl <;> decide

theorem passes_word (hw : IsWord w) (ht : NoWord t) (hy : Next t x) (hx : isMild x) (m : Reading) :
    Passes m (m.word w) w t :=
  ⟨hw.not_mem (by decide), fun _ hb => readOn_word hw ht hb hy hx⟩

theorem passes_name (n : Name) (ht : NoWord t) (hy : Next t x) (hx : isMild x) (m : Reading) :
    Passes m (m.name n) n.text t :=
  ⟨dot_not_mem n.spelled.list, fun _ hb => readOn_name n hb ht hy hx⟩

theorem passes_braces (l : NameList) (m : Reading) (t : Text) :
    Passes m (m.list l.text) (braces l.text) t := by
  refine ⟨?_, fun b hb => readOn_braces l.spelled hb⟩
  have := dot_not_mem l.spelled
  simp [braces, this]

/-! ### What follows a token -/

theorem Space.noWord (s : Space) (t : Text) : NoWord (s.text ++ t) := by
  obtain ⟨x, u, hx⟩ := List.exists_cons_of_ne_nil s.ne_nil
  have hs := s.blank x (by rw [hx]; exact List.mem_cons_self)
  rw [hx]
  exact noWord_cons (not_isWordChar_of_isSpace hs) _

/-- A name opens with something mild. -/
theorem Name.exists_next (n : Name) (t : Text) : ∃ y, Next (n.text ++ t) y ∧ isMild y := by
  obtain ⟨x, u, hx⟩ := List.exists_cons_of_ne_nil n.ne_nil
  have h := n.spelled
  rw [hx] at h
  refine ⟨x, ?_, isMild_of_spelled h.list⟩
  rw [hx]
  refine next_cons ?_ _
  by_cases hw : isWordStart x
  · exact isSolid_of_isWordChar (isWordChar_of_isWordStart hw)
  · exact isSolid_of_isStray (isStray_of_spelled h hw)

/-! ### Groups and bindings -/

def Reading.group (m : Reading) : Group → Reading
  | .star _ _ _ x _ => m.name x
  | .list _ l _ => m.list l.text

def Reading.bindings (m : Reading) : Bindings → Reading
  | .name _ x _ => m.name x
  | .group g => m.group g
  | .both _ x _ g => (m.name x).group g

theorem passes_group (g : Group) (hy : Next t x) (hx : isMild x) (m : Reading) :
    Passes m (m.group g) g.text t := by
  cases g with
  | star before mid sep n after =>
    have hname : Passes m (m.name n) n.text (after.text ++ t) :=
      passes_name n (after.noWord t) (next_gap after.blank hy) hx m
    have hrest := hname.append (passes_gap after.toGap (m.name n) t)
    obtain ⟨y, hn, hm⟩ := n.exists_next (after.text ++ t)
    rw [← List.append_assoc] at hn
    have hword : m.word "as".toList = m := if_neg fun h => absurd h.2 (by decide)
    have has : Passes m m "as".toList (sep.text ++ (n.text ++ after.text) ++ t) := by
      rw [List.append_assoc]
      nth_rewrite 2 [← hword]
      exact passes_word ⟨by decide, by decide⟩ (sep.noWord _) (next_gap sep.blank hn) hm m
    have hsep := has.append ((passes_gap sep.toGap m _).append hrest)
    exact (passes_gap before m _).append
      ((passes_mark (x := '*') (by decide) m _).append ((passes_gap mid m _).append hsep))
  | list before l after =>
    exact (passes_gap before m _).append
      ((passes_braces l m _).append (passes_gap after (m.list l.text) t))

theorem passes_bindings (bs : Bindings) (hy : Next t x) (hx : isMild x) (m : Reading) :
    Passes m (m.bindings bs) bs.text t := by
  cases bs with
  | name before n after =>
    have hname := passes_name n (after.noWord t) (next_gap after.blank hy) hx m
    exact (passes_gap before.toGap m _).append
      (hname.append (passes_gap after.toGap (m.name n) t))
  | group g => exact passes_group g hy hx m
  | both before n after g =>
    have hcomma := next_cons (x := ',') (by decide) (g.text ++ t)
    have hno := noWord_gap after.blank (noWord_cons (x := ',') (by decide) (g.text ++ t))
    have hname : Passes m (m.name n) n.text (after.text ++ ([','] ++ g.text) ++ t) := by
      rw [List.append_assoc]
      exact passes_name n hno (next_gap after.blank hcomma) (by decide) m
    have hmark := (passes_mark (x := ',') (by decide) (m.name n) _).append
      (passes_group g hy hx (m.name n))
    exact (passes_gap before.toGap m _).append
      (hname.append ((passes_gap after (m.name n) _).append hmark))

/-- What opens a group is a star or a brace. -/
theorem Group.exists_next (g : Group) (t : Text) :
    ∃ y, Next (g.text ++ t) y ∧ (y = '*' ∨ y = '\x7b') ∧ NoWord (g.text ++ t) := by
  cases g with
  | star before mid sep n after =>
    refine ⟨'*', ?_, Or.inl rfl, ?_⟩
    · rw [Group.text, List.append_assoc]
      exact next_gap before.blank (next_cons (by decide) _)
    · rw [Group.text, List.append_assoc]
      exact noWord_gap before.blank (noWord_cons (by decide) _)
  | list before l after =>
    refine ⟨'\x7b', ?_, Or.inr rfl, ?_⟩
    · rw [Group.text, List.append_assoc]
      exact next_gap before.blank (next_cons (by decide) _)
    · rw [Group.text, List.append_assoc]
      exact noWord_gap before.blank (noWord_cons (by decide) _)

theorem Bindings.exists_next (bs : Bindings) (t : Text) :
    ∃ y, Next (bs.text ++ t) y ∧ (¬ isQuote y ∧ y ≠ '(' ∧ y ≠ '.') ∧ NoWord (bs.text ++ t) := by
  have hname : ∀ (before : Space) (n : Name) (u : Text),
      ∃ y, Next (before.text ++ (n.text ++ u)) y ∧ (¬ isQuote y ∧ y ≠ '(' ∧ y ≠ '.') ∧
        NoWord (before.text ++ (n.text ++ u)) := by
    intro before n u
    obtain ⟨y, hy, hm⟩ := n.exists_next u
    simp only [isMild, Bool.and_eq_true, Bool.not_eq_true', bne_iff_ne, ne_eq] at hm
    have hc : ¬ isQuote y ∧ y ≠ '(' ∧ y ≠ '.' := ⟨by simp [hm.1.1.1.1], hm.1.1.1.2, hm.1.1.2⟩
    exact ⟨y, next_gap before.blank hy, hc, before.noWord _⟩
  cases bs with
  | name before n after =>
    rw [Bindings.text, List.append_assoc, List.append_assoc]
    exact hname before n _
  | group g =>
    obtain ⟨y, hy, hc, hno⟩ := g.exists_next t
    refine ⟨y, hy, ?_, hno⟩
    rcases hc with rfl | rfl <;> decide
  | both before n after g =>
    rw [Bindings.text, List.append_assoc, List.append_assoc]
    exact hname before n _

/-! ### Keywords -/

/-- How the scan reads on after the word `export`. -/
def Reading.exporting : Reading → Reading
  | .script => .clause .reexport
  | .clause kind => .clause kind

theorem passes_import (ht : NoWord t) (hy : Next t x) (hx : ¬ isQuote x ∧ x ≠ '(' ∧ x ≠ '.')
    (m : Reading) : Passes m (m.word "import".toList) "import".toList t := by
  refine ⟨by decide, ?_⟩
  intro b hb
  cases m with
  | script => exact scanFrom_import ht hb hy hx
  | clause kind => exact clause_word ⟨by decide, by decide⟩ ht fun h => absurd h (by decide)

theorem passes_export (ht : NoWord t) (hy : Next t x) (hx : x = '*' ∨ x = '\x7b') (m : Reading) :
    Passes m m.exporting "export".toList t := by
  refine ⟨by decide, ?_⟩
  intro b hb
  cases m with
  | script => exact scanFrom_export ht hb hy hx
  | clause kind => exact clause_word ⟨by decide, by decide⟩ ht fun h => absurd h (by decide)

/-- The kind of the clause that is read. -/
def Reading.kind? : Reading → Option Kind
  | .script => none
  | .clause kind => some kind

/-- The literal after `from`. -/
theorem readOn_from_literal (m : Reading) (gap : Gap) (l : Quoted) (b t : Text) :
    readOn m ⟨b, "from".toList ++ (gap.text ++ (l.text ++ t))⟩ =
      (m.kind?.map fun kind => specifier kind
        (Text.bytes (gap.text.reverse ++ ("from".toList.reverse ++ b))) l.quote l.raw).toList ++
      scanFrom ⟨l.text.reverse ++ (gap.text.reverse ++ ("from".toList.reverse ++ b)), t⟩ := by
  cases m with
  | clause kind => exact readOn_from gap.blank l.isQuote l.inside
  | script =>
    have hno : NoWord (gap.text ++ (l.text ++ t)) :=
      noWord_gap gap.blank (noWord_quoted l.isQuote l.raw t)
    have hgap := readOn_gap (m := .script) (b := "from".toList.reverse ++ b) (t := l.text ++ t)
      gap.blank
    rw [readOn_script, scanFrom_name ⟨by decide, by decide⟩ hno (by decide) (by decide)]
    exact hgap.trans (scanFrom_quoted l.isQuote l.inside)

/-! ### One declaration -/

/-- The kind that the scan reports for the literal of a declaration. -/
def Declaration.report (m : Reading) : Declaration → Option Kind
  | importFrom bs _ _ => ((m.word "import".toList).bindings bs).kind?
  | importOnly _ _ => if m = .script then some .static else none
  | exportFrom g _ _ => (m.exporting.group g).kind?
  | exportAll _ _ _ _ => m.exporting.kind?
  | exportList _ _ => none

/-- How the scan reads on after a declaration. -/
def Declaration.after (m : Reading) : Declaration → Reading
  | exportList _ l => m.exporting.list l.text
  | importFrom _ _ _ | importOnly _ _ | exportFrom _ _ _ | exportAll _ _ _ _ => .script

/-- A text before `from` that has taken the scan to the reading `k`. -/
theorem readOn_passed {gap : Gap} {l : Quoted} {b : Text}
    (h : Passes m k w ("from".toList ++ (gap.text ++ (l.text ++ t))))
    (hb : lastSolid? b ≠ some '.') :
    readOn m ⟨b, w ++ ("from".toList ++ gap.text) ++ l.text ++ t⟩ =
      (k.kind?.map fun kind => specifier kind
        (Text.bytes b + Text.bytes (w ++ ("from".toList ++ gap.text))) l.quote l.raw).toList ++
      scanFrom ⟨(w ++ ("from".toList ++ gap.text) ++ l.text).reverse ++ b, t⟩ := by
  have hbytes : Text.bytes b + Text.bytes (w ++ ("from".toList ++ gap.text)) =
      Text.bytes (gap.text.reverse ++ ("from".toList.reverse ++ (w.reverse ++ b))) := by
    simp only [Text.bytes_append, Text.bytes_reverse]
    omega
  have hrev : (w ++ ("from".toList ++ gap.text) ++ l.text).reverse ++ b =
      l.text.reverse ++ (gap.text.reverse ++ ("from".toList.reverse ++ (w.reverse ++ b))) := by
    simp only [List.reverse_append, List.append_assoc]
  have hassoc : w ++ ("from".toList ++ gap.text) ++ l.text ++ t =
      w ++ ("from".toList ++ (gap.text ++ (l.text ++ t))) := by
    simp only [List.append_assoc]
  rw [hassoc, h.2 b hb, readOn_from_literal k gap l, hbytes, hrev]

theorem next_from (gap : Gap) (t : Text) : Next ("from".toList ++ (gap.text ++ t)) 'f' :=
  next_cons (by decide) _

/-- An import without bindings: what is read as script is reported, and what is read as the rest of a
clause is not. -/
theorem readOn_importOnly (gap : Gap) (l : Quoted) {b : Text} (hb : lastSolid? b ≠ some '.')
    (m : Reading) (t : Text) :
    readOn m ⟨b, (Declaration.importOnly gap l).text ++ t⟩ =
      ((Declaration.importOnly gap l).found
        ((Declaration.importOnly gap l).report m) (Text.bytes b)).toList ++
      scanFrom ⟨(Declaration.importOnly gap l).text.reverse ++ b, t⟩ := by
  have hno : NoWord (gap.text ++ (l.text ++ t)) :=
    noWord_gap gap.blank (noWord_quoted l.isQuote l.raw t)
  have htext : (Declaration.importOnly gap l).text = "import".toList ++ gap.text ++ l.text := rfl
  have hassoc : "import".toList ++ gap.text ++ l.text ++ t =
      "import".toList ++ (gap.text ++ (l.text ++ t)) := by
    simp only [List.append_assoc]
  have hrev : ("import".toList ++ gap.text ++ l.text).reverse ++ b =
      l.text.reverse ++ (gap.text.reverse ++ ("import".toList.reverse ++ b)) := by
    simp only [List.reverse_append, List.append_assoc]
  rw [htext, hassoc, hrev]
  cases m with
  | script =>
    have hbytes : Text.bytes b + Text.bytes ("import".toList ++ gap.text) =
        Text.bytes (gap.text.reverse ++ ("import".toList.reverse ++ b)) := by
      simp only [Text.bytes_append, Text.bytes_reverse]
      omega
    have hfound : (Declaration.importOnly gap l).found (some .static) (Text.bytes b) =
        some (specifier .static (Text.bytes b + Text.bytes ("import".toList ++ gap.text))
          l.quote l.raw) := rfl
    rw [Declaration.report, if_pos rfl, hfound, hbytes]
    exact scanFrom_import_quoted hb gap.blank l.isQuote l.inside
  | clause kind =>
    have hne : "import".toList ≠ "from".toList := by decide
    have hword := @clause_word b _ _ kind ⟨by decide, by decide⟩ hno fun h => absurd h hne
    have hfound : (Declaration.importOnly gap l).found none (Text.bytes b) = none := rfl
    rw [Declaration.report, if_neg (by simp), hfound, hword, readOn_gap gap.blank, Quoted.text,
      readOn_quoted l.isQuote l.inside]
    rfl

theorem passes_exportList (before : Gap) (l : NameList) (m : Reading) (t : Text) :
    Passes m (m.exporting.list l.text) (Declaration.exportList before l).text t := by
  have hlist := (passes_gap before m.exporting (braces l.text ++ t)).append
    (passes_braces l m.exporting t)
  have hy : Next (before.text ++ braces l.text ++ t) '\x7b' := by
    rw [List.append_assoc]
    exact next_gap before.blank (next_cons (by decide) _)
  have hno : NoWord (before.text ++ braces l.text ++ t) := by
    rw [List.append_assoc]
    exact noWord_gap before.blank (noWord_cons (by decide) _)
  rw [Declaration.text_exportList]
  exact (passes_export hno hy (Or.inr rfl) m).append hlist

/-- **What is reported of a declaration.** -/
theorem readOn_declaration (d : Declaration) (m : Reading) {b : Text} (hb : lastSolid? b ≠ some '.')
    (t : Text) :
    readOn m ⟨b, d.text ++ t⟩ = (d.found (d.report m) (Text.bytes b)).toList ++
      readOn (d.after m) ⟨d.text.reverse ++ b, t⟩ := by
  cases d with
  | importFrom bs gap l =>
    obtain ⟨y, hy, hc, hno⟩ := bs.exists_next ("from".toList ++ (gap.text ++ (l.text ++ t)))
    have hbind := passes_bindings bs (next_from gap (l.text ++ t)) (by decide)
    exact readOn_passed ((passes_import hno hy hc m).append (hbind _)) hb
  | exportFrom g gap l =>
    obtain ⟨y, hy, hc, hno⟩ := g.exists_next ("from".toList ++ (gap.text ++ (l.text ++ t)))
    have hgroup := passes_group g (next_from gap (l.text ++ t)) (by decide)
    exact readOn_passed ((passes_export hno hy hc m).append (hgroup _)) hb
  | exportAll before after gap l =>
    set r := "from".toList ++ (gap.text ++ (l.text ++ t))
    have hstar : Passes m.exporting m.exporting (before.text ++ '*' :: after.text) r :=
      (passes_gap before _ _).append
        ((passes_mark (x := '*') (by decide) _ _).append (passes_gap after _ r))
    have hy : Next (before.text ++ '*' :: after.text ++ r) '*' := by
      rw [List.append_assoc]
      exact next_gap before.blank (next_cons (by decide) _)
    have hno : NoWord (before.text ++ '*' :: after.text ++ r) := by
      rw [List.append_assoc]
      exact noWord_gap before.blank (noWord_cons (by decide) _)
    exact readOn_passed ((passes_export hno hy (Or.inl rfl) m).append hstar) hb
  | importOnly gap l => exact readOn_importOnly gap l hb m t
  | exportList before l => exact (passes_exportList before l m t).2 b hb

end Unbundled.Import
