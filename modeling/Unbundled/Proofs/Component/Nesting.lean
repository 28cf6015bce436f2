import Unbundled.Proofs.Component.Templates

/-! # Templates in templates

The content of a template is text with tags in it: tags of templates, which may hold further content,
and tags of elements whose names only start like theirs (`Content`).

The search for the closing tag keeps count of the templates that are open, but it does not find all of
their tags: after an opening tag that it does not take for a template's it is blind up to the next
closing one. `Content.lost` counts what it loses in this way. -/

namespace Unbundled.Component

variable {inside s t u : Text}

/-! ### Contents -/

/-- Text in which no template is opened or closed. -/
structure Prose where
  text : Text
  isProse : IsProse text := by decide

/-- Whether the name in a tag that starts like one of a template goes on. -/
def isLong (inside : Text) : Bool :=
  inside.head?.any fun c => !Text.isBlank c && c != '/' && c != '>'

/-- The opening tag of an element with a longer name, after the name of a template. -/
structure LongTag where
  inside : Text
  long : isLong inside := by decide
  shut : Shut inside := by decide

/-- The closing tag of such an element. -/
structure LongEnd where
  inside : Text
  long : isLong inside := by decide
  not_open : '<' ∉ inside := by decide
  not_close : '>' ∉ inside := by decide

/-- The attributes of a template, with the blanks before them. -/
structure Attrs where
  text : Text
  isBlank : text.head?.all Text.isBlank := by decide
  slash : text.getLast? ≠ some '/' := by decide
  shut : Shut text := by decide

/-- **The content of a template**: text, opening and closing tags of other elements, and templates
without content or with it. -/
inductive Content
  | text (t : Prose)
  | other (t : Prose) (tag : LongTag) (rest : Content)
  | closing (t : Prose) (tag : LongEnd) (rest : Content)
  | single (t : Prose) (attrs : Attrs) (rest : Content)
  | nested (t : Prose) (attrs : Attrs) (inner rest : Content)

/-- What a closing tag starts with that starts like the one of a template. -/
def closeMark : Text := "</template".toList

/-- A tag that starts like the closing tag of a template. -/
def closeTag (inside : Text) : Text := closeMark ++ (inside ++ ['>'])

/-- The text of a content. -/
def Content.source : Content → Text
  | .text t => t.text
  | .other t tag rest => t.text ++ (openTag tag.inside ++ rest.source)
  | .closing t tag rest => t.text ++ (closeTag tag.inside ++ rest.source)
  | .single t attrs rest => t.text ++ (openTag (attrs.text ++ ['/']) ++ rest.source)
  | .nested t attrs inner rest =>
    t.text ++ (openTag attrs.text ++ (inner.source ++ (templateClose ++ rest.source)))

/-! ### Tags -/

theorem shut_single (attrs : Attrs) : Shut (attrs.text ++ ['/']) := attrs.shut.append shut_slash

theorem isSelfClosing_single (attrs : Attrs) : isSelfClosing (attrs.text ++ ['/']) := by
  rw [isSelfClosing, List.getLast?_concat]
  rfl

theorem isSelfClosing_attrs (attrs : Attrs) : isSelfClosing attrs.text = false :=
  beq_eq_false_iff_ne.mpr attrs.slash

theorem isSeen_of_isLong (h : isLong inside) : isSeen inside = false := by
  cases inside with
  | nil => exact absurd h (by decide)
  | cons c inside =>
    obtain ⟨⟨hblank, hslash⟩, hangle⟩ : (Text.isBlank c = false ∧ c ≠ '/') ∧ c ≠ '>' := by
      simpa [isLong] using h
    have hne : ∀ b, Text.isBlank b → c ≠ b := by
      rintro b hb rfl
      rw [hblank] at hb
      exact absurd hb Bool.false_ne_true
    simp [isSeen, isTagBoundary, hslash, hangle, hne ' ' (by decide), hne '\t' (by decide),
      hne '\n' (by decide), hne '\r' (by decide)]

theorem getLast?_closeTag (s inside : Text) : (s ++ closeTag inside).getLast? = some '>' := by
  rw [closeTag, ← List.append_assoc, ← List.append_assoc, List.getLast?_concat]

theorem head?_closeTag (inside : Text) : ∀ z ∈ (closeTag inside).head?, z = '<' :=
  fun _ hz => (Option.some.inj hz).symm

theorem templateClose_eq : templateClose = closeMark ++ ['>'] := by decide

/-- A mark can only stand at the front of a closing tag. -/
theorem isPrefix_closeTag (tag : LongEnd) {pat : Text} (hpat : pat.head? = some '<')
    (h : pat <:+: closeTag tag.inside) : pat <+: closeTag tag.inside := by
  obtain ⟨pat, rfl⟩ := List.head?_eq_some_iff.mp hpat
  have hmark : closeTag tag.inside = '<' :: (closeMark.tail ++ (tag.inside ++ ['>'])) := rfl
  rw [hmark] at h ⊢
  refine (List.infix_cons_iff.mp h).resolve_right fun h => ?_
  have hnot : '<' ∉ closeMark.tail := by decide
  have hmem := h.subset List.mem_cons_self
  simp only [List.mem_append, hnot, tag.not_open, List.mem_singleton, false_or] at hmem
  exact absurd hmem (by decide)

/-- A closing tag of another element is text. -/
theorem isProse_closeTag (tag : LongEnd) : IsProse (closeTag tag.inside) := by
  constructor
  · intro h
    have hpre := isPrefix_closeTag tag rfl h
    have hlen : templateOpen.length ≤ closeMark.length := by decide
    have hnot : ¬ templateOpen <+: closeMark := by decide
    exact hnot (List.prefix_of_prefix_length_le hpre (List.prefix_append _ _) hlen)
  · intro h
    have hpre := isPrefix_closeTag tag rfl h
    have hlong := tag.long
    have hnot := tag.not_close
    rw [templateClose_eq, closeTag, List.prefix_append_right_inj] at hpre
    cases hin : tag.inside with
    | nil =>
      rw [hin] at hlong
      exact absurd hlong (by decide)
    | cons c inside =>
      rw [hin] at hpre hnot
      exact hnot ((List.cons_prefix_cons.mp hpre).1 ▸ List.mem_cons_self)

/-! ### What is lost -/

/-- The number of closing tags in a text. -/
def closers (t : Text) : Nat :=
  match _h : Text.cut? templateClose t with
  | none => 0
  | some (_, u) => closers u + 1
termination_by t.length
decreasing_by exact Text.length_lt_of_cut? _h (by decide)

theorem closers_eq_zero (h : Text.cut? templateClose t = none) : closers t = 0 := by
  rw [closers]
  split
  · rfl
  · rename_i h'
    exact absurd (h.symm.trans h') (by simp)

theorem closers_eq_succ (h : Text.cut? templateClose t = some (s, u)) : closers t = closers u + 1 := by
  rw [closers]
  split
  · rename_i h'
    exact absurd (h.symm.trans h') (by simp)
  · rename_i h'
    rw [(Prod.mk.inj (Option.some.inj (h.symm.trans h'))).2]

/-- Whether the search finds a tag. It is `blind` after a tag that it has not found. -/
def isFound (blind : Bool) (inside : Text) : Bool := !blind && isSeen inside

/-- The number of closing tags that are found within a tag, in its values. -/
def within (blind : Bool) (inside : Text) : Nat :=
  if isFound blind inside then 0 else closers (openTag inside)

/-- Whether the search is blind after a tag. -/
def blindAfter (blind : Bool) (inside : Text) : Bool :=
  !isFound blind inside && closers (openTag inside) == 0

/-- **What the search loses**: the opening tags that it misses and the closing tags that it finds
within tags. -/
def Content.lost : Bool → Content → Nat
  | _, .text _ => 0
  | blind, .other _ tag rest =>
    within blind tag.inside + rest.lost (blindAfter blind tag.inside)
  | blind, .closing _ _ rest => rest.lost blind
  | blind, .single _ attrs rest =>
    within blind (attrs.text ++ ['/']) + rest.lost (blindAfter blind (attrs.text ++ ['/']))
  | blind, .nested _ attrs inner rest =>
    within blind attrs.text + (if isFound blind attrs.text then 0 else 1) +
      inner.lost (blindAfter blind attrs.text) + rest.lost false

/-- No opening mark comes after a closing tag. -/
def OpensFirst (t : Text) : Prop :=
  ∀ s u, Text.cut? templateClose t = some (s, u) → ¬ templateOpen <:+: u

/-- In the values of no tag an opening mark comes after a closing tag. -/
def Content.Unmixed : Content → Prop
  | .text _ => True
  | .other _ tag rest => OpensFirst (openTag tag.inside) ∧ rest.Unmixed
  | .closing _ _ rest => rest.Unmixed
  | .single _ attrs rest => OpensFirst (openTag (attrs.text ++ ['/'])) ∧ rest.Unmixed
  | .nested _ attrs inner rest => OpensFirst (openTag attrs.text) ∧ inner.Unmixed ∧ rest.Unmixed

/-- No tag of another element is opened, and the blanks in the tags of templates are such that the
search finds them. -/
def Content.Plain : Content → Prop
  | .text _ => True
  | .other _ _ _ => False
  | .closing _ _ rest => rest.Plain
  | .single _ attrs rest => isSeen (attrs.text ++ ['/']) ∧ rest.Plain
  | .nested _ attrs inner rest => isSeen attrs.text ∧ inner.Plain ∧ rest.Plain

theorem isFound_of_isSeen (h : isSeen inside) : isFound false inside := by
  rw [isFound, h]
  rfl

/-- Nothing is lost in a plain content. -/
theorem Content.lost_eq_zero (c : Content) (h : c.Plain) : c.lost false = 0 := by
  induction c with
  | text t => rfl
  | other t tag rest => exact absurd h id
  | closing t tag rest ih => exact ih h
  | single t attrs rest ih =>
    rw [lost, within, blindAfter, isFound_of_isSeen h.1, if_pos rfl]
    exact (Nat.zero_add _).trans (ih h.2)
  | nested t attrs inner rest ihi ihr =>
    rw [lost, within, blindAfter, isFound_of_isSeen h.1, if_pos rfl, if_pos rfl]
    have hi := ihi h.2.1
    have hr := ihr h.2.2
    rw [Bool.not_true, Bool.false_and, hi, hr]

end Unbundled.Component
