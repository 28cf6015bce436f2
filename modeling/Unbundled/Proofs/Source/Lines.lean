import Unbundled.Proofs.Source.Fronts

/-! # Complete lines

A text is `Ended` if its last line is: it ends with a newline, and no backslash takes this newline
along. Whatever is written after such a text, what can only be closed on its line is closed before, or
not at all. So strings, regular expressions, words and line comments are read in the same way whether
or not more text follows (`stringEnd?_ended`, `regexEnd?_ended`, `wordEnd_ended`).

Block comments and template literals may run on. One that is open at the end takes all that is left of
the text, and only then does the reading depend on what follows (`commentEnd?_ended`,
`triviaEnd_ended`, `templateEnd?_ended`). `Lexeme.read_ended` puts this together. -/

namespace Unbundled.Source

/-- The last line of the text is ended. -/
def Ended (u : Text) : Prop := ∃ s : Text, u = s ++ ['\n'] ∧ s.getLast? ≠ some '\\'

variable {u t : Text} {c x : Char}

/-! ### What is left of a text -/

theorem Ended.ne_nil (h : Ended u) : u ≠ [] := by
  obtain ⟨s, rfl, -⟩ := h
  simp

theorem Ended.mem (h : Ended u) : '\n' ∈ u := by
  obtain ⟨s, rfl, -⟩ := h
  simp

/-- Behind the first character stands nothing, or an ended text again. -/
theorem Ended.tail (h : Ended (c :: u)) : (c = '\n' ∧ u = []) ∨ Ended u := by
  obtain ⟨s, hs, hb⟩ := h
  cases s with
  | nil =>
    obtain ⟨rfl, rfl⟩ := List.cons.inj hs
    exact Or.inl ⟨rfl, rfl⟩
  | cons d s =>
    obtain ⟨rfl, rfl⟩ := List.cons.inj hs
    refine Or.inr ⟨s, rfl, fun hs => hb ?_⟩
    rw [List.getLast?_cons, hs]
    rfl

theorem Ended.tail_of_ne (h : Ended (c :: u)) (hc : c ≠ '\n') : Ended u := by
  rcases h.tail with ⟨rfl, -⟩ | h
  · exact absurd rfl hc
  · exact h

/-- The newline at the end is not escaped, so a backslash and the character after it leave something
over. -/
theorem Ended.tail_of_escape (h : Ended ('\\' :: c :: u)) : Ended u := by
  rcases (h.tail_of_ne (by decide)).tail with ⟨rfl, rfl⟩ | h'
  · obtain ⟨s, hs, hb⟩ := h
    obtain rfl : ['\\'] = s := by simpa using congrArg List.dropLast hs
    exact absurd rfl hb
  · exact h'

theorem Ended.drop (h : Ended u) (n : Nat) : u.drop n = [] ∨ Ended (u.drop n) := by
  induction n generalizing u with
  | zero => exact Or.inr h
  | succ n ih =>
    cases u with
    | nil => exact Or.inl rfl
    | cons c u =>
      rcases h.tail with ⟨-, rfl⟩ | h
      · exact Or.inl List.drop_nil
      · exact ih h

theorem Ended.drop_of_lt {n : Nat} (h : Ended u) (hn : n < u.length) : Ended (u.drop n) := by
  rcases h.drop n with hd | hd
  · exact absurd (List.drop_eq_nil_iff.mp hd) (by omega)
  · exact hd

theorem Ended.head?_append (h : Ended u) (t : Text) : (u ++ t).head? = u.head? := by
  cases u with
  | nil => exact absurd rfl h.ne_nil
  | cons c u => rfl

/-- A backslash at the front has a character to escape. -/
theorem Ended.ne_backslash (h : Ended (c :: u)) (hne : ∀ d v, c = '\\' → u = d :: v → False) :
    c ≠ '\\' := by
  rintro rfl
  obtain ⟨d, v, rfl⟩ := List.exists_cons_of_ne_nil (h.tail_of_ne (by decide)).ne_nil
  exact hne d v rfl rfl

/-! ### What is closed on its line -/

theorem stringEnd?_ended (q : Char) (t : Text) (h : Ended u) :
    stringEnd? q (u ++ t) = stringEnd? q u := by
  fun_induction stringEnd? q u with
  | case1 c u ih => rw [List.cons_append, List.cons_append, stringEnd?_escape, ih h.tail_of_escape]
  | case2 u _ => rw [List.cons_append, stringEnd?_cons (by decide), if_pos rfl]
  | case3 u hne hn =>
    rw [List.cons_append, stringEnd?_cons (h.ne_backslash hne), if_neg hn, if_pos rfl]
  | case4 c u hne hn hq ih =>
    rw [List.cons_append, stringEnd?_cons (h.ne_backslash hne), if_neg hn, if_neg hq,
      ih (h.tail_of_ne hn)]
  | case5 => exact absurd rfl h.ne_nil

theorem regexEnd?_ended (inBrackets : Bool) (t : Text) (h : Ended u) :
    regexEnd? inBrackets (u ++ t) = regexEnd? inBrackets u := by
  fun_induction regexEnd? inBrackets u with
  | case1 inBrackets c u ih =>
    rw [List.cons_append, List.cons_append, regexEnd?_escape, ih h.tail_of_escape]
  | case2 inBrackets u _ => rw [List.cons_append, regexEnd?_cons (by decide), if_pos rfl]
  | case3 inBrackets u _ _ ih =>
    rw [List.cons_append, regexEnd?_cons (by decide), if_neg (by decide), if_pos rfl,
      ih (h.tail_of_ne (by decide))]
  | case4 inBrackets u _ _ _ ih =>
    rw [List.cons_append, regexEnd?_cons (by decide), if_neg (by decide), if_neg (by decide),
      if_pos rfl, ih (h.tail_of_ne (by decide))]
  | case5 inBrackets c u hne hn h1 h2 hs =>
    rw [List.cons_append, regexEnd?_cons (h.ne_backslash hne), if_neg hn, if_neg h1, if_neg h2,
      if_pos hs]
  | case6 inBrackets c u hne hn h1 h2 hs ih =>
    rw [List.cons_append, regexEnd?_cons (h.ne_backslash hne), if_neg hn, if_neg h1, if_neg h2,
      if_neg hs, ih (h.tail_of_ne hn)]
  | case7 => exact absurd rfl h.ne_nil

/-- Behind a regular expression the newline is still to come. -/
theorem ended_drop_regexEnd? {inBrackets : Bool} {n : Nat} (h : Ended u)
    (hn : regexEnd? inBrackets u = some n) : Ended (u.drop n) := by
  fun_induction regexEnd? inBrackets u generalizing n with
  | case1 inBrackets c u ih =>
    obtain ⟨m, hm, rfl⟩ := Option.map_eq_some_iff.mp hn
    exact ih h.tail_of_escape hm
  | case2 inBrackets u _ => exact absurd hn (by simp)
  | case3 inBrackets u _ _ ih =>
    obtain ⟨m, hm, rfl⟩ := Option.map_eq_some_iff.mp hn
    exact ih (h.tail_of_ne (by decide)) hm
  | case4 inBrackets u _ _ _ ih =>
    obtain ⟨m, hm, rfl⟩ := Option.map_eq_some_iff.mp hn
    exact ih (h.tail_of_ne (by decide)) hm
  | case5 inBrackets c u _ hn' _ _ _ =>
    obtain rfl : 1 = n := by simpa using hn
    exact h.tail_of_ne hn'
  | case6 inBrackets c u _ hn' _ _ _ ih =>
    obtain ⟨m, hm, rfl⟩ := Option.map_eq_some_iff.mp hn
    exact ih (h.tail_of_ne hn') hm
  | case7 => exact absurd rfl h.ne_nil

theorem wordEnd_ended (t : Text) (h : Ended u) : wordEnd (u ++ t) = wordEnd u := by
  refine wordEnd_append_of_lt (Nat.lt_of_le_of_ne (wordEnd_le u) fun hl => ?_) t
  have hu : u.takeWhile isWordChar = u := (List.takeWhile_prefix isWordChar).eq_of_length hl
  have hn := List.mem_takeWhile_imp (hu ▸ h.mem)
  exact absurd hn (by decide)

theorem lineEnd?_ended (t : Text) (h : Ended u) :
    ∃ n, lineEnd? u = some n ∧ lineEnd? (u ++ t) = some n := by
  fun_induction lineEnd? u with
  | case1 => exact absurd rfl h.ne_nil
  | case2 u => exact ⟨1, rfl, by rw [List.cons_append, lineEnd?, if_pos rfl]⟩
  | case3 c u hc ih =>
    obtain ⟨n, h1, h2⟩ := ih (h.tail_of_ne hc)
    exact ⟨n + 1, by rw [h1]; rfl, by rw [List.cons_append, lineEnd?, if_neg hc, h2]; rfl⟩

/-! ### What may run on -/

theorem blockEnd?_append {n : Nat} (t : Text) (h : blockEnd? u = some n) :
    blockEnd? (u ++ t) = some n := ((eq_some_iff_of_front (blockEnd?_front u t)).mp h).1

/-- A comment is read alike, or it is a block comment that is still open at the end. -/
theorem commentEnd?_ended (t : Text) (h : Ended u) :
    commentEnd? (u ++ t) = commentEnd? u ∨ commentEnd? u = some u.length := by
  obtain ⟨c, u, rfl⟩ := List.exists_cons_of_ne_nil h.ne_nil
  rw [List.cons_append]
  by_cases hs : c = '/'
  · subst hs
    obtain ⟨n, h1, h2⟩ := lineEnd?_ended t (h.tail_of_ne (by decide))
    exact Or.inl (by rw [commentEnd?, commentEnd?, h1, h2]; rfl)
  by_cases hb : c = '*'
  · subst hb
    cases hn : blockEnd? u with
    | some n => exact Or.inl (by rw [commentEnd?, commentEnd?, hn, blockEnd?_append t hn]; rfl)
    | none => exact Or.inr (by rw [commentEnd?, hn, Nat.add_comm]; rfl)
  · exact Or.inl (by simp [commentEnd?, hs, hb])

/-- Blanks and comments are passed alike, or they reach to the end. -/
theorem triviaEnd_ended (t : Text) (h : Ended u) :
    triviaEnd (u ++ t) = triviaEnd u ∨ u.length ≤ triviaEnd u := by
  fun_induction triviaEnd u with
  | case1 => exact absurd rfl h.ne_nil
  | case2 c u hc ih =>
    rw [List.cons_append, triviaEnd, if_pos hc, List.length_cons]
    rcases h.tail with ⟨-, rfl⟩ | h
    · exact Or.inr (Nat.le_add_right 1 _)
    · rcases ih h with ih | ih
      · exact Or.inl (by rw [ih])
      · exact Or.inr (by omega)
  | case3 u n hn hc ih =>
    have hu := h.tail_of_ne (by decide)
    rw [List.cons_append, triviaEnd, if_neg hc, if_pos rfl, List.length_cons]
    by_cases hle : u.length ≤ n
    · exact Or.inr (by omega)
    rcases commentEnd?_ended t hu with hs | hs
    · have hd : Ended (u.drop n) := hu.drop_of_lt (by omega)
      rw [hs, hn]
      dsimp only
      rw [List.drop_append_of_le_length (by omega)]
      rcases ih hd with ih | ih
      · exact Or.inl (by rw [ih])
      · rw [List.length_drop] at ih
        exact Or.inr (by omega)
    · rw [hn] at hs
      exact absurd (Option.some.inj hs).ge hle
  | case4 u hn hc =>
    rw [List.cons_append, triviaEnd, if_neg hc, if_pos rfl]
    rcases commentEnd?_ended t (h.tail_of_ne (by decide)) with hs | hs
    · rw [hs, hn]
      exact Or.inl rfl
    · rw [hn] at hs
      exact absurd hs (by simp)
  | case5 c u hc hs =>
    rw [List.cons_append, triviaEnd, if_neg hc, if_neg hs]
    exact Or.inl rfl

theorem Lexeme.readFlat_ended (behind t : Text) (h : Ended (c :: u)) :
    readFlat behind c (u ++ t) = readFlat behind c u ∨ readFlat behind c u = ⟨.comment, u.length⟩ := by
  rcases h.tail with ⟨rfl, rfl⟩ | hu
  · exact Or.inl rfl
  unfold readFlat
  by_cases hs : c = '/'
  · rw [if_pos hs, if_pos hs]
    rcases commentEnd?_ended t hu with hc | hc
    · rw [hc, regexEnd?_ended false t hu]
      -- the flags of a regular expression end before the newline
      cases hr : regexEnd? false u with
      | none => exact Or.inl rfl
      | some n =>
        have hd := ended_drop_regexEnd? hu hr
        have hle : n ≤ u.length := by
          by_contra hn
          exact hd.ne_nil (List.drop_eq_nil_iff.mpr (by omega))
        dsimp only
        rw [List.drop_append_of_le_length hle, wordEnd_ended t hd]
        exact Or.inl rfl
    · exact Or.inr (by rw [hc])
  · rw [if_neg hs, if_neg hs, stringEnd?_ended c t hu, wordEnd_ended t hu]
    exact Or.inl rfl

theorem Nesting.step_ended (behind t : Text) (place : Nesting) (h : Ended (c :: u)) :
    place.step behind c (u ++ t) = place.step behind c u ∨
      ∃ still, place.step behind c u = (some still, u.length) := by
  rcases h.tail with ⟨rfl, rfl⟩ | hu
  · cases place with
    | text outer => exact Or.inl rfl
    | expression depth outer => exact Or.inl rfl
  cases place with
  | text outer =>
    dsimp only [step]
    rw [hu.head?_append]
    exact Or.inl rfl
  | expression depth outer =>
    dsimp only [step]
    by_cases h1 : c = '\x7b'
    · exact Or.inl (by rw [if_pos h1, if_pos h1])
    by_cases h2 : c = '\x7d'
    · exact Or.inl (by rw [if_neg h1, if_neg h1, if_pos h2, if_pos h2])
    by_cases h3 : c = backtick
    · exact Or.inl (by rw [if_neg h1, if_neg h1, if_neg h2, if_neg h2, if_pos h3, if_pos h3])
    rw [if_neg h1, if_neg h1, if_neg h2, if_neg h2, if_neg h3, if_neg h3]
    rcases Lexeme.readFlat_ended behind t h with hr | hr
    · exact Or.inl (by rw [hr])
    · exact Or.inr ⟨_, by rw [hr]⟩

/-- A template literal is read alike, or it is still open at the end. -/
theorem templateEnd?_ended (place : Nesting) (behind t : Text) (h : Ended u) :
    templateEnd? place behind (u ++ t) = templateEnd? place behind u ∨
      templateEnd? place behind u = none := by
  fun_induction templateEnd? place behind u with
  | case1 => exact absurd rfl h.ne_nil
  | case2 place behind c u n hn =>
    rw [List.cons_append, templateEnd?]
    rcases place.step_ended behind t h with hs | ⟨still, hs⟩
    · rw [hs, hn]
      exact Or.inl rfl
    · rw [hn] at hs
      exact absurd hs (by simp)
  | case3 place behind c u still n hn ih =>
    rw [List.cons_append, templateEnd?]
    by_cases hle : u.length ≤ n
    · rw [List.drop_eq_nil_iff.mpr hle, templateEnd?]
      exact Or.inr rfl
    have hd : Ended ((c :: u).drop (n + 1)) := h.drop_of_lt (by rw [List.length_cons]; omega)
    rw [List.drop_succ_cons] at hd
    rcases place.step_ended behind t h with hs | ⟨still', hs⟩
    · rw [hs, hn]
      dsimp only
      rw [List.drop_append_of_le_length (by omega), List.take_append_of_le_length (by omega)]
      rcases ih hd with ih | ih
      · exact Or.inl (by rw [ih])
      · exact Or.inr (by rw [ih]; rfl)
    · rw [hn] at hs
      simp only [Prod.mk.injEq] at hs
      exact absurd hs.2.ge hle

/-- **A lexeme is read alike, or it is no word and takes all that is left.** -/
theorem Lexeme.read_ended (behind t : Text) (h : Ended (c :: u)) :
    read behind c (u ++ t) = read behind c u ∨
      (read behind c u).kind ≠ .word ∧ (read behind c u).size = u.length := by
  unfold read
  by_cases hc : c = backtick
  · rw [if_pos hc, if_pos hc]
    have hu := h.tail_of_ne (by rintro rfl; exact absurd hc (by decide))
    cases hn : templateEnd? (.text []) (c :: behind) u with
    | none => exact Or.inr ⟨by simp, rfl⟩
    | some n =>
      rcases templateEnd?_ended (.text []) (c :: behind) t hu with hs | hs
      · exact Or.inl (by rw [hs, hn]; rfl)
      · rw [hn] at hs
        exact absurd hs (by simp)
  · rw [if_neg hc, if_neg hc]
    rcases readFlat_ended behind t h with hr | hr
    · exact Or.inl hr
    · exact Or.inr (by rw [hr]; exact ⟨by simp, rfl⟩)

end Unbundled.Source
