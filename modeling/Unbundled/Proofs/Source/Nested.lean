import Unbundled.Proofs.Source.Bytewise

/-! # Template literals by index

The readers by index of a template literal call each other, where the lexeme of a literal keeps a list of
what is open. `nested?` calls them one after the other for such a list, and each step of the lexeme leaves
its end where it is (`nested?_step`). So the readers end where the lexeme does (`template?_offset`). -/

namespace Unbundled.Source.Indexed

variable {source t : Text} {c : Cursor} {x : Char} {n depth i : Nat} {outer : List Nat}
  {place still : Nesting}

/-! ### The readers, byte by byte -/

theorem template?_escape (h : byteAt? source i = some '\\') :
    template? source i = template? source (i + 2) := by
  rw [template?_some h, if_pos rfl]

theorem template?_close (h : byteAt? source i = some backtick) :
    template? source i = some (i + 1) := by
  rw [template?_some h, if_neg (by decide), if_pos rfl]

theorem template?_open (h : byteAt? source i = some '$')
    (hbrace : byteAt? source (i + 1) = some '\x7b') :
    template? source i = (expression? source 0 (i + 2)).bind (template? source) := by
  have hlt := lt_size_of_byteAt? hbrace
  rw [template?_some h, if_neg (by decide), if_neg (by decide), if_pos ⟨rfl, hbrace⟩]
  cases hj : expression? source 0 (i + 2) with
  | none => rfl
  | some j =>
    have := le_of_expression? hj
    exact if_pos (by omega)

theorem template?_other (h : byteAt? source i = some x) (hback : x ≠ '\\') (hclose : x ≠ backtick)
    (hopen : ¬ (x = '$' ∧ byteAt? source (i + 1) = some '\x7b')) :
    template? source i = template? source (i + 1) := by
  rw [template?_some h, if_neg hback, if_neg hclose, if_neg hopen]

theorem expression?_open (h : byteAt? source i = some '\x7b') :
    expression? source depth i = expression? source (depth + 1) (i + 1) := by
  rw [expression?_some h, if_pos rfl]

theorem expression?_close (h : byteAt? source i = some '\x7d') :
    expression? source depth i =
      if depth = 0 then some (i + 1) else expression? source (depth - 1) (i + 1) := by
  rw [expression?_some h, if_neg (by decide), if_pos rfl]

theorem expression?_template (h : byteAt? source i = some backtick) :
    expression? source depth i = (template? source (i + 1)).bind (expression? source depth) := by
  have hlt := lt_size_of_byteAt? h
  rw [expression?_some h, if_neg (by decide), if_neg (by decide), if_pos rfl]
  cases hj : template? source (i + 1) with
  | none => rfl
  | some j =>
    have := le_of_template? hj
    exact if_pos (by omega)

theorem expression?_part (h : byteAt? source i = some x) (hopen : x ≠ '\x7b') (hclose : x ≠ '\x7d')
    (htick : x ≠ backtick) :
    expression? source depth i = (part? source i x).bind (expression? source depth) := by
  rw [expression?_some h, if_neg hopen, if_neg hclose, if_neg htick]
  cases hj : part? source i x with
  | none => rfl
  | some j => exact if_pos (lt_of_part? hj)

/-- A byte of a word is passed alone, and so is one beyond ASCII. -/
theorem expression?_passes (h : byteAt? source i = some x) (hx : isWordChar x ∨ isWide x) :
    expression? source depth i = expression? source depth (i + 1) := by
  have hne : ∀ z, isWordChar z = false → isWide z = false → x ≠ z := by
    rintro z hz hw rfl
    rw [hz, hw] at hx
    exact absurd hx (by decide)
  have hq : ¬ isQuote x := by
    intro hq
    rcases isQuote_iff.mp hq with rfl | rfl <;> exact absurd hx (by decide)
  rw [expression?_part h (hne _ (by decide) (by decide)) (hne _ (by decide) (by decide))
    (hne _ (by decide) (by decide)), part?, if_neg (hne _ (by decide) (by decide)), if_neg hq,
    Option.bind_some]

theorem passesWide_template : PassesWide source (template? source) := by
  intro i y hb hy
  have hne : ∀ z, isWide z = false → y ≠ z := fun z => ne_of_isWide hy
  exact template?_other hb (hne _ (by decide)) (hne _ (by decide)) fun h => hne _ (by decide) h.1

theorem passesWide_expression : PassesWide source (expression? source depth) :=
  fun _ _ hb hy => expression?_passes hb (Or.inr hy)

theorem expression?_word (hc : c.whole = source) :
    expression? source depth c.offset =
      expression? source depth (c.advance (wordEnd c.ahead)).offset := by
  generalize ht : c.ahead = t
  induction t generalizing c with
  | nil => rfl
  | cons x t ih =>
    by_cases hw : isWordChar x
    · have hx := asciiOnly_isWordChar x hw
      rw [passesWide_expression.step hc ht fun _ =>
          expression?_passes (byteAt?_ascii hc ht hx) (Or.inl hw),
        ih (whole_advance hc 1) (ahead_advance_one ht), Cursor.advance_advance, wordEnd, wordEnd,
        List.takeWhile_cons_of_pos hw, List.length_cons, Nat.add_comm]
    · rw [wordEnd, List.takeWhile_cons_of_neg hw]
      rfl

/-- A part of an expression that is no brace and no template literal: a word or a character beyond ASCII
is passed byte by byte, any other part at once. -/
theorem expression?_flat (hc : c.whole = source) (h : c.ahead = x :: t) (hopen : x ≠ '\x7b')
    (hclose : x ≠ '\x7d') (htick : x ≠ backtick) :
    expression? source depth c.offset =
      expression? source depth (c.advance ((Lexeme.readFlat c.behind x t).size + 1)).offset := by
  by_cases hstart : isWordStart x
  · have hword : Lexeme.read c.behind x t = ⟨.word, wordEnd t⟩ := Lexeme.read_word hstart
    rw [Lexeme.read, if_neg htick] at hword
    rw [hword, expression?_word hc, h, wordEnd,
      List.takeWhile_cons_of_pos (isWordChar_of_isWordStart hstart), List.length_cons]
    rfl
  cases hx : isWide x with
  | false =>
    rw [expression?_part (byteAt?_ascii hc h hx) hopen hclose htick, part?_offset hc h hx hstart,
      Option.bind_some]
  | true =>
    have hsingle : Lexeme.read c.behind x t = .single := Lexeme.read_plain (isPlain_of_isWide hx)
    rw [Lexeme.read, if_neg htick] at hsingle
    rw [hsingle, passesWide_expression.step hc h fun hx' => absurd (hx'.symm.trans hx) (by decide)]
    rfl

/-! ### What is open around a place -/

/-- The end of the literals and expressions that are open around a place behind a template literal. -/
def closes? (source : Text) : List Nat → Nat → Option Nat
  | [], i => some i
  | depth :: outer, i =>
    (expression? source depth i).bind fun j => (template? source j).bind (closes? source outer)

/-- The end of what is open, from a place in it on. -/
def nested? (source : Text) : Nesting → Nat → Option Nat
  | .text outer, i => (template? source i).bind (closes? source outer)
  | .expression depth outer, i => closes? source (depth :: outer) i

theorem nested?_end (hc : c.whole = source) (h : c.ahead = []) (k : Nat) :
    nested? source place (c.offset + k) = some (size source) := by
  have hnone := byteAt?_nil hc h
  have hsize : byteAt? source (size source) = none := by
    rw [byteAt?, ← length_units]
    exact List.getElem?_eq_none (Nat.le_refl _)
  have hcloses : ∀ outer, closes? source outer (size source) = some (size source) := by
    intro outer
    induction outer with
    | nil => rfl
    | cons depth outer ih =>
      rw [closes?, expression?_none hsize, Option.bind_some, template?_none hsize, Option.bind_some, ih]
  cases place with
  | text outer => rw [nested?, template?_none (hnone k), Option.bind_some, hcloses]
  | expression depth outer =>
    rw [nested?, closes?, expression?_none (hnone k), Option.bind_some, template?_none hsize,
      Option.bind_some, hcloses]

theorem template?_backslash (hc : c.whole = source) (h : c.ahead = '\\' :: t) :
    template? source c.offset = template? source (c.advance 2).offset := by
  have hescape := template?_escape (byteAt?_ascii hc h (by decide))
  cases t with
  | nil =>
    have h2 : (c.advance 2).ahead = [] := by
      rw [Cursor.ahead_advance, h]
      rfl
    have hover : byteAt? source (c.offset + 2) = none := by
      rw [byteAt?_offset hc, h]
      rfl
    rw [hescape, template?_none hover, template?_none (byteAt?_end (whole_advance hc 2) h2)]
  | cons y u => rw [hescape, passesWide_template.jump hc h (by decide)]

/-- A step in the text of a literal keeps the end of what is open. -/
theorem nested?_text (hc : c.whole = source) (h : c.ahead = x :: t)
    (hs : (Nesting.text outer).step c.behind x t = (some still, n)) :
    nested? source (.text outer) c.offset = nested? source still (c.advance (n + 1)).offset := by
  have hbrace : byteAt? source (c.advance 1).offset = some '\x7b' ↔ t.head? = some '\x7b' := by
    rw [byteAt?_eq_some_iff (whole_advance hc 1) (by decide), ahead_advance_one h]
  unfold Nesting.step at hs
  dsimp only at hs
  by_cases hback : x = '\\'
  · subst hback
    rw [if_pos rfl] at hs
    cases hs
    rw [nested?, template?_backslash hc h]
    rfl
  rw [if_neg hback] at hs
  by_cases htick : x = backtick
  · subst htick
    rw [if_pos rfl] at hs
    have hclose := template?_close (byteAt?_ascii hc h (by decide))
    cases outer with
    | nil => cases hs
    | cons depth outer =>
      cases hs
      rw [nested?, hclose, Option.bind_some, offset_advance_ascii h (by decide)]
      rfl
  rw [if_neg htick] at hs
  by_cases hopen : x = '$' ∧ t.head? = some '\x7b'
  · obtain ⟨rfl, hhead⟩ := hopen
    rw [hhead, if_pos (by decide)] at hs
    cases hs
    have hoff := offset_advance_ascii h (by decide)
    obtain ⟨u, rfl⟩ := List.head?_eq_some_iff.mp hhead
    have hoff2 := offset_advance_ascii (ahead_advance_one h) (by decide)
    rw [Cursor.advance_advance, hoff] at hoff2
    rw [hoff] at hbrace
    rw [nested?, template?_open (byteAt?_ascii hc h (by decide)) (hbrace.mpr rfl), Option.bind_assoc,
      hoff2]
    rfl
  · rw [if_neg (by simpa using hopen)] at hs
    cases hs
    rw [nested?, passesWide_template.step hc h fun hx => template?_other (byteAt?_ascii hc h hx) hback htick
      (by rw [← offset_advance_ascii h hx, hbrace]; exact hopen)]
    rfl

/-- A step in an expression keeps the end of what is open. -/
theorem nested?_expression (hc : c.whole = source) (h : c.ahead = x :: t)
    (hs : (Nesting.expression depth outer).step c.behind x t = (some still, n)) :
    nested? source (.expression depth outer) c.offset =
      nested? source still (c.advance (n + 1)).offset := by
  unfold Nesting.step at hs
  dsimp only at hs
  by_cases hopen : x = '\x7b'
  · subst hopen
    rw [if_pos rfl] at hs
    cases hs
    rw [nested?, closes?, expression?_open (byteAt?_ascii hc h (by decide)),
      offset_advance_ascii h (by decide)]
    rfl
  rw [if_neg hopen] at hs
  by_cases hclose : x = '\x7d'
  · subst hclose
    rw [if_pos rfl] at hs
    rw [nested?, closes?, expression?_close (byteAt?_ascii hc h (by decide))]
    cases depth with
    | zero =>
      cases hs
      rw [offset_advance_ascii h (by decide)]
      rfl
    | succ depth =>
      cases hs
      rw [offset_advance_ascii h (by decide)]
      rfl
  rw [if_neg hclose] at hs
  by_cases htick : x = backtick
  · subst htick
    rw [if_pos rfl] at hs
    cases hs
    show closes? source (depth :: outer) c.offset = _
    rw [closes?, expression?_template (byteAt?_ascii hc h (by decide)), Option.bind_assoc,
      offset_advance_ascii h (by decide)]
    rfl
  rw [if_neg htick] at hs
  cases hs
  rw [nested?, nested?, closes?, closes?, expression?_flat hc h hopen hclose htick]

theorem nested?_step (hc : c.whole = source) (h : c.ahead = x :: t)
    (hs : place.step c.behind x t = (some still, n)) :
    nested? source place c.offset = nested? source still (c.advance (n + 1)).offset := by
  cases place with
  | text outer => exact nested?_text hc h hs
  | expression depth outer => exact nested?_expression hc h hs

/-- The step that closes the whole literal comes to its end. -/
theorem nested?_last (hc : c.whole = source) (h : c.ahead = x :: t)
    (hs : place.step c.behind x t = (none, n)) :
    nested? source place c.offset = some (c.advance (n + 1)).offset := by
  obtain ⟨rfl, rfl⟩ := Nesting.step_eq_none hs
  cases place with
  | text outer =>
    cases outer with
    | nil =>
      rw [nested?, template?_close (byteAt?_ascii hc h (by decide)), Option.bind_some,
        offset_advance_ascii h (by decide)]
      rfl
    | cons depth outer => exact absurd hs (by simp [Nesting.step, backtick])
  | expression depth outer => exact absurd hs (by simp [Nesting.step, backtick])

theorem nested?_offset (place : Nesting) (hc : c.whole = source) :
    nested? source place c.offset =
      some (((templateEnd? place c.behind c.ahead).map fun n => (c.advance n).offset).getD
        (size source)) := by
  generalize ht : c.ahead = t
  generalize hb : c.behind = b
  fun_induction templateEnd? place b t generalizing c with
  | case1 place b => exact nested?_end hc ht 0
  | case2 place b x t n hs =>
    subst hb
    exact nested?_last hc ht hs
  | case3 place b x t still n hs ih =>
    subst hb
    have hnext := ih (whole_advance hc (n + 1)) (by rw [Cursor.ahead_advance, ht]; rfl)
      (by rw [Cursor.behind_advance, ht, List.take_succ_cons, List.reverse_cons, List.append_assoc]; rfl)
    rw [nested?_step hc ht hs, hnext, Option.map_map]
    simp only [Cursor.advance_advance, Nat.add_comm (n + 1)]
    rfl

/-- A template literal that starts at a place ends where its lexeme does. -/
theorem template?_offset (hc : c.whole = source) (h : c.ahead = backtick :: t) :
    template? source (c.offset + 1) =
      some (c.advance ((Lexeme.read c.behind backtick t).size + 1)).offset := by
  have hnested := nested?_offset (.text []) (whole_advance hc 1)
  have hbind : ∀ o : Option Nat, o.bind (closes? source []) = o := by
    intro o
    cases o <;> rfl
  have hbehind : (c.advance 1).behind = backtick :: c.behind := by rw [Cursor.behind_advance, h]; rfl
  rw [nested?, hbind, hbehind, ahead_advance_one h, offset_advance_ascii h (by decide)] at hnested
  rw [hnested, Lexeme.read, if_pos rfl]
  cases templateEnd? (.text []) (backtick :: c.behind) t with
  | none =>
    have hfinish : c.advance (t.length + 1) = c.finish := by rw [Cursor.finish, h]; rfl
    simp only [Option.map_none, Option.getD_none, hfinish]
    rw [offset_finish hc]
  | some n =>
    simp only [Option.map_some, Option.getD_some, Cursor.advance_advance, Nat.add_comm 1]

end Unbundled.Source.Indexed
