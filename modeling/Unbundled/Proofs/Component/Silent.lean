import Unbundled.Proofs.Component.Exports
import Unbundled.Text.Literal

/-! # Texts without a default export

A run of lexemes is `Silent` if it passes no default export. What follows a silent run has the default
exports of the whole (`Silent.defaultExportsFrom_eq`).

Most of a component module is written by the library: lines of words, marks and literals. Such a text
is `Still`: it is read silently wherever it stands and whatever follows. Still texts may be put
together (`Still.append`); the fixed ones are recognized by `mute`, and a literal is still whatever it
was written for (`still_quote`). -/

namespace Unbundled.Component

open Source Import

variable {b b' p q t u v w : Text} {c d : Cursor} {x y : Char}

/-- From one place to another by whole lexemes, past no default export. -/
abbrev Silent : Cursor → Cursor → Prop := Run fun c => ¬ AtDefault c

theorem Silent.defaultExportsFrom_eq (h : Silent c d) :
    defaultExportsFrom c = defaultExportsFrom d := by
  induction h with
  | stay => rfl
  | step hc hn _ ih => rw [defaultExportsFrom_cons hc, if_neg hn, ih]

theorem atDefault_alike (hb : Alike b b') : AtDefault ⟨p ++ b, u⟩ ↔ AtDefault ⟨p ++ b', u⟩ := by
  rw [atDefault_iff, atDefault_iff]
  dsimp only
  rw [(hb.append p).word]

/-- A silent run is one behind any text that is alike. -/
theorem Silent.alike (hb : Alike b b') (h : Silent ⟨p ++ b, u⟩ ⟨q ++ b, v⟩) :
    Silent ⟨p ++ b', u⟩ ⟨q ++ b', v⟩ :=
  h.behind hb fun _ _ hn => fun ha => hn ((atDefault_alike hb).mpr ha)

/-! ### What follows the words -/

theorem not_mem_exportWords {gap : Text} (hy : y ∉ "exportdefault".toList) (hs : ¬ isSpace y)
    (hg : ∀ x ∈ gap, isSpace x) : y ∉ exportWords gap := by
  intro h
  rw [exportWords_eq, List.mem_append, List.mem_append] at h
  rcases h with (h | h) | h
  · exact hy (List.mem_append_left "default".toList h)
  · exact hs (hg y h)
  · exact hy (List.mem_append_right "export".toList h)

/-- A word that is not among the two is not part of a default export, so what it starts may be
replaced. -/
theorem atDefault_append (hy : y ∉ "exportdefault".toList) (hw : isWordChar y)
    (h : AtDefault ⟨b, u ++ y :: t⟩) (t' : Text) : AtDefault ⟨b, u ++ t'⟩ := by
  have hs : ¬ isSpace y := fun hs => not_isWordChar_of_isSpace hs hw
  obtain ⟨gap, v, hc, hgap, hspace, hb, hv⟩ := atDefault_iff.mp h
  rcases List.append_eq_append_iff.mp hc with ⟨z, hz, hrest⟩ | ⟨z, rfl, rfl⟩
  · exfalso
    cases z with
    | nil =>
      rw [List.nil_append] at hrest
      exact hv y (by rw [← hrest]; rfl) hw
    | cons x z =>
      obtain ⟨rfl, -⟩ := List.cons.inj hrest
      exact not_mem_exportWords hy hs hspace (hz ▸ List.mem_append_right u List.mem_cons_self)
  · refine atDefault_iff.mpr ⟨gap, z ++ t', List.append_assoc _ _ _, hgap, hspace, hb, ?_⟩
    cases z with
    | nil => exact absurd hw (hv y rfl)
    | cons x z => exact hv

/-- No default export reaches into the text. -/
def Apart (t : Text) : Prop := ∀ b u, AtDefault ⟨b, u ++ t⟩ → AtDefault ⟨b, u⟩

theorem apart_of_head? (ht : t.head? = some y) (hy : y ∉ "exportdefault".toList)
    (hw : isWordChar y) : Apart t := by
  intro b u h
  obtain ⟨v, rfl⟩ := List.head?_eq_some_iff.mp ht
  have := atDefault_append hy hw h []
  rwa [List.append_nil] at this

theorem apart_newline : Apart ['\n'] := by
  intro b u h
  obtain ⟨gap, v, hc, hgap, hspace, hb, hv⟩ := atDefault_iff.mp h
  cases hl : v.getLast? with
  | none =>
    -- the words do not end with a newline
    rw [List.getLast?_eq_none_iff.mp hl, List.append_nil] at hc
    have hlast := congrArg List.getLast? hc
    rw [List.getLast?_concat, exportWords_eq, List.getLast?_append] at hlast
    exact absurd (Option.some.inj hlast) (by decide)
  | some x =>
    obtain ⟨w, rfl⟩ := List.getLast?_eq_some_iff.mp hl
    rw [← List.append_assoc] at hc
    refine atDefault_iff.mpr ⟨gap, w, (List.append_inj' hc rfl).1, hgap, hspace, hb, ?_⟩
    cases w with
    | nil => exact fun _ hn => absurd hn (by simp)
    | cons z w => exact hv

/-- The words at a place are still there when more text follows a line. -/
theorem AtDefault.append (h : AtDefault ⟨b, u⟩) (hu : '\n' ∈ u.getLast?) (t : Text) :
    AtDefault ⟨b, u ++ t⟩ := by
  obtain ⟨gap, v, rfl, hgap, hspace, hb, hv⟩ := atDefault_iff.mp h
  refine atDefault_iff.mpr ⟨gap, v ++ t, List.append_assoc _ _ _, hgap, hspace, hb, ?_⟩
  cases v with
  | nil =>
    -- the words do not end a line
    rw [List.append_nil, exportWords_eq, List.getLast?_append] at hu
    exact absurd (Option.some.inj hu) (by decide)
  | cons x v => exact hv

/-! ### Still texts -/

/-- A text that is read silently wherever it stands. -/
def Still (w : Text) : Prop := ∀ b t, Silent ⟨b, w ++ t⟩ ⟨w.reverse ++ b, t⟩

theorem still_nil : Still [] := fun _ _ => .stay _

theorem Still.append (hv : Still v) (hw : Still w) : Still (v ++ w) := by
  intro b t
  rw [List.append_assoc, List.reverse_append, List.append_assoc]
  exact (hv b (w ++ t)).trans (hw (v.reverse ++ b) t)

/-- A text is still if its first lexeme is `x :: u` whatever follows, and what is left is still. -/
theorem Still.cons (hw : Still w) (hx : ∀ b t, ¬ AtDefault ⟨b, x :: (u ++ w) ++ t⟩)
    (hu : ∀ b t, (Lexeme.read b x (u ++ w ++ t)).size = u.length) : Still (x :: (u ++ w)) := by
  intro b t
  refine Run.sized rfl (hx b t) (hu b t) ?_
  rw [← List.length_cons, Cursor.advance_length (s := x :: u) (t := w ++ t) (by simp)]
  have h := hw ((x :: u).reverse ++ b) t
  rwa [← List.append_assoc, ← List.reverse_append, List.cons_append] at h

theorem not_atDefault_of_ne (hx : x ≠ 'e') (b t : Text) : ¬ AtDefault ⟨b, x :: t⟩ := by
  intro h
  obtain ⟨u, hu⟩ := exists_cons_of_atDefault h
  exact hx (List.cons.inj hu).1

theorem word_of_append (hw : ∀ c ∈ w, isWordChar c) (hne : w ≠ []) (hv : NoWord v)
    (h : x :: t = w ++ v) : x :: t.take (wordEnd t) = w := by
  obtain ⟨y, u, rfl⟩ := List.exists_cons_of_ne_nil hne
  rw [List.cons_append] at h
  obtain ⟨rfl, rfl⟩ := List.cons.inj h
  rw [wordEnd_append (fun c hc => hw c (List.mem_cons_of_mem x hc)) hv, List.take_left]

/-- The word `export` starts a default export, and no other word does. -/
theorem word_of_atDefault (h : AtDefault ⟨b, x :: t⟩) :
    x :: t.take (wordEnd t) = "export".toList := by
  obtain ⟨gap, v, hc, hgap, hspace, -, -⟩ := atDefault_iff.mp h
  rw [exportWords_append] at hc
  obtain ⟨g, gs, rfl⟩ := List.exists_cons_of_ne_nil hgap
  exact word_of_append (List.all_eq_true.mp (by decide)) (by decide)
    (noWord_cons (not_isWordChar_of_isSpace (hspace g List.mem_cons_self)) _) hc

/-- Whether a text is made of words, strings and single characters, with no word `export`. -/
def mute : Text → Bool
  | [] => true
  | x :: t =>
    if isPlain x then mute t
    else if isWordStart x then
      wordEnd t < t.length && x :: t.take (wordEnd t) != "export".toList && mute (t.drop (wordEnd t))
    else if isQuote x then
      match stringEnd? x t with
      | some n => mute (t.drop n)
      | none => false
    else false
termination_by t => t.length
decreasing_by
  · exact Nat.lt_succ_self _
  · exact Text.length_drop_lt _ _ _
  · exact Text.length_drop_lt _ _ _

theorem still_of_mute (h : mute w) : Still w := by
  fun_induction mute w with
  | case1 => exact still_nil
  | case2 x w hx ih =>
    have hne : x ≠ 'e' := by rintro rfl; exact absurd hx (by decide)
    refine (ih h).cons (u := []) (fun b t => not_atDefault_of_ne hne b _) fun b t => ?_
    rw [Lexeme.read_plain hx]
    rfl
  | case3 x w hp hx ih =>
    rw [Bool.and_eq_true, Bool.and_eq_true, decide_eq_true_eq, bne_iff_ne] at h
    obtain ⟨⟨hlt, hne⟩, hw⟩ := h
    have hs := (ih hw).cons (x := x) (u := w.take (wordEnd w)) (fun b t ha => hne ?_) fun b t => ?_
    · rwa [List.take_append_drop] at hs
    · rw [List.take_append_drop] at ha
      have := word_of_atDefault ha
      rwa [List.append_eq, wordEnd_append_of_lt hlt, List.take_append_of_le_length hlt.le] at this
    · rw [List.take_append_drop, Lexeme.read_word hx, List.length_take]
      dsimp only
      rw [wordEnd_append_of_lt hlt]
      omega
  | case4 x w hp hx hq n hn ih =>
    have hs := (ih h).cons (x := x) (u := w.take n) (fun b t => ?_) fun b t => ?_
    · rwa [List.take_append_drop] at hs
    · exact not_atDefault_of_ne (by rintro rfl; exact absurd hq (by decide)) b _
    · obtain ⟨h1, h2⟩ := (eq_some_iff_of_front (stringEnd?_front hq w t)).mp hn
      rw [List.take_append_drop, Lexeme.read_string hq h1, List.length_take]
      dsimp only
      omega
  | case5 => exact absurd h Bool.false_ne_true
  | case6 => exact absurd h Bool.false_ne_true

/-! ### Literals -/

theorem still_quoted (hx : isQuote x) (h : Inside x u) : Still (quoted x u) := by
  have hs := still_nil.cons (x := x) (u := u ++ [x]) (fun b t => ?_) fun b t => ?_
  · rwa [List.append_nil] at hs
  · exact not_atDefault_of_ne (by rintro rfl; exact absurd hx (by decide)) b _
  · rw [List.append_nil, List.append_assoc, List.singleton_append,
      Lexeme.read_string hx (stringEnd?_append hx t h), List.length_append, List.length_singleton]

/-- **A written literal is still**, whatever it was written for. -/
theorem still_quote (t : Text) : Still (Literal.quote t) :=
  still_quoted (by decide) (inside_flatMap_escape t)

end Unbundled.Component
