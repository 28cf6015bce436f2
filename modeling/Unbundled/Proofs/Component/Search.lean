import Unbundled.Proofs.Component.Silent

/-! # The search for the default export

The search goes through a script by its own rules: strings run over several lines, a template literal
ends with its first backtick, and regular expressions are not known. It meets the places that the
lexemes lead to as long as the lexemes are `passable`: comments, words and strings always are, a
template literal if its first backtick closes it, and a regular expression if no character of it
opens a comment or a string for the search and no default export stands in it. A quote or a slash
that opens nothing must open nothing for the search either.

* `defaultExport?_lexeme`: a passable lexeme is passed.
* `legible`: whether all lexemes up to the default export are passable.
* `found_of_legibleFrom`: a legible script is searched right. -/

namespace Unbundled.Component

open Source Import

variable {c d e : Cursor} {t u : Text} {x q : Char} {n : Nat}

/-! ### Steps of the search -/

theorem defaultExport?_nil (h : c.ahead = []) : defaultExport? c = none := by
  rw [defaultExport?]
  split
  · rfl
  · rename_i hc
    rw [h] at hc
    exact absurd hc (by simp)

theorem defaultExport?_of_some (h : afterDefault? c = some d) : defaultExport? c = some (c, d) := by
  obtain ⟨t, ht⟩ := exists_cons_of_atDefault (c := c) (by rw [AtDefault, h]; rfl)
  rw [defaultExport?]
  split
  · rename_i hc
    rw [ht] at hc
    exact absurd hc (by simp)
  · rw [h]

theorem defaultExport?_cons (hc : c.ahead = x :: t) (hn : ¬ AtDefault c) :
    defaultExport? c = defaultExport? (c.advance (passed x t + 1)) := by
  conv_lhs => rw [defaultExport?]
  split
  · rename_i h
    rw [hc] at h
    exact absurd h (by simp)
  · rename_i h
    rw [hc] at h
    obtain ⟨rfl, rfl⟩ := List.cons.inj h
    rw [Option.not_isSome_iff_eq_none.mp hn]

/-- The places around the default export lie in the script. -/
theorem whole_defaultExport? (h : defaultExport? c = some (d, e)) :
    d.whole = c.whole ∧ e.whole = c.whole := by
  fun_induction defaultExport? c with
  | case1 => exact absurd h (by simp)
  | case2 c x t hahead d' hd' =>
    obtain ⟨rfl, rfl⟩ := Prod.mk.inj (Option.some.inj h)
    obtain ⟨gap, u, -, -, -, -, -, rfl⟩ := afterDefault?_eq_some_iff.mp hd'
    exact ⟨rfl, Cursor.whole_advance _ _⟩
  | case3 c x t hahead hd' ih =>
    obtain ⟨hd, he⟩ := ih h
    exact ⟨hd.trans (Cursor.whole_advance _ c), he.trans (Cursor.whole_advance _ c)⟩

/-- The search takes the character at a place alone. -/
def alone (c : Cursor) : Bool :=
  match c.ahead with
  | [] => true
  | x :: t => passed x t == 0

/-- Characters that the search takes alone, none of which starts a default export. -/
theorem defaultExport?_advance (n : Nat)
    (h : ∀ k < n, alone (c.advance k) ∧ ¬ AtDefault (c.advance k)) :
    defaultExport? c = defaultExport? (c.advance n) := by
  induction n with
  | zero => rw [Cursor.advance_zero]
  | succ n ih =>
    obtain ⟨halone, hn⟩ := h n (Nat.lt_succ_self n)
    rw [ih fun k hk => h k (Nat.lt_succ_of_lt hk), ← Cursor.advance_advance]
    cases hc : (c.advance n).ahead with
    | nil => rw [Cursor.advance_of_nil hc]
    | cons x t =>
      rw [alone, hc, beq_iff_eq] at halone
      rw [defaultExport?_cons hc hn, halone]

/-! ### Lexemes that the search passes -/

/-- A string of one line is a string for the search. -/
theorem closingQuote?_of_stringEnd? (h : stringEnd? q t = some n) : closingQuote? q t = some n := by
  fun_induction stringEnd? q t generalizing n with
  | case1 c t ih =>
    obtain ⟨m, hm, rfl⟩ := Option.map_eq_some_iff.mp h
    rw [closingQuote?, ih hm]
    rfl
  | case2 => exact absurd h (by simp)
  | case3 t hne hn =>
    rw [closingQuote?, if_pos rfl, h]
    exact hne
  | case4 c t hne hn hq ih =>
    obtain ⟨m, hm, rfl⟩ := Option.map_eq_some_iff.mp h
    rw [closingQuote?, if_neg hq, ih hm]
    · rfl
    · exact hne
  | case5 => exact absurd h (by simp)

/-- The newline after a line comment is passed alone. -/
theorem lineEnd?_takeWhile (t : Text) :
    (lineEnd? t = none ∧ (t.takeWhile (· ≠ '\n')).length = t.length) ∨
      ∃ u, t.drop (t.takeWhile (· ≠ '\n')).length = '\n' :: u ∧
        lineEnd? t = some ((t.takeWhile (· ≠ '\n')).length + 1) := by
  induction t with
  | nil => exact Or.inl ⟨rfl, rfl⟩
  | cons c t ih =>
    by_cases hc : c = '\n'
    · subst hc
      exact Or.inr ⟨t, rfl, rfl⟩
    · rw [lineEnd?, if_neg hc, List.takeWhile_cons_of_pos (by simpa using hc), List.length_cons,
        List.length_cons]
      rcases ih with ⟨hn, hl⟩ | ⟨u, hd, hn⟩
      · exact Or.inl ⟨by rw [hn]; rfl, by rw [hl]⟩
      · exact Or.inr ⟨u, hd, by rw [hn]; rfl⟩

theorem passed_line (t : Text) :
    passed '/' ('/' :: t) = (t.takeWhile (· ≠ '\n')).length + 1 := by
  unfold passed
  rw [if_pos rfl, List.takeWhile_cons_of_pos (by decide), List.length_cons]
  rfl

theorem passed_block (t : Text) : passed '/' ('*' :: t) = 1 + (blockEnd? t).getD t.length := rfl

theorem defaultExport?_comment (hc : c.ahead = '/' :: t) (hm : commentEnd? t = some n)
    (hn : ¬ AtDefault c) : defaultExport? c = defaultExport? (c.advance (n + 1)) := by
  unfold commentEnd? at hm
  split at hm
  · rename_i u
    rw [defaultExport?_cons hc hn, passed_line]
    obtain rfl := Option.some.inj hm
    rcases lineEnd?_takeWhile u with ⟨hl, hlen⟩ | ⟨v, hd, hl⟩
    · rw [hl, hlen, Option.getD_none, Nat.add_comm 1]
    · have hnext : (c.advance ((u.takeWhile (· ≠ '\n')).length + 1 + 1)).ahead = '\n' :: v := by
        rw [Cursor.ahead_advance, hc]
        exact hd
      have hnone := not_atDefault_of_ne (x := '\n') (by decide)
        (c.advance ((u.takeWhile (· ≠ '\n')).length + 1 + 1)).behind v
      rw [← hnext] at hnone
      rw [hl, Option.getD_some, Nat.add_comm 1, ← Cursor.advance_advance (_ + 1 + 1),
        defaultExport?_cons hnext hnone]
      rfl
  · rw [defaultExport?_cons hc hn, passed_block, Option.some.inj hm]
  · exact absurd hm (by simp)

theorem passed_quote (hx : isQuote x ∨ x = backtick) (t : Text) :
    passed x t = (closingQuote? x t).getD t.length := by
  have hs : x ≠ '/' := by
    rintro rfl
    exact absurd hx (by decide)
  unfold passed
  rw [if_neg hs, if_pos (by simpa using hx)]

theorem passed_slash (h1 : t.head? ≠ some '/') (h2 : t.head? ≠ some '*') : passed '/' t = 0 := by
  unfold passed
  rw [if_pos rfl]
  split
  · exact absurd rfl h1
  · exact absurd rfl h2
  · rfl

theorem passed_other (h1 : x ≠ '/') (h2 : ¬ (isQuote x ∨ x = backtick)) (t : Text) : passed x t = 0 := by
  unfold passed
  rw [if_neg h1, if_neg (by simpa using h2)]

/-- A character of a word is taken alone. -/
theorem passed_wordChar (hx : isWordChar x) (t : Text) : passed x t = 0 := by
  have hs : x ≠ '/' := by rintro rfl; exact absurd hx (by decide)
  have hb : x ≠ backtick := by rintro rfl; exact absurd hx (by decide)
  have hq : ¬ isQuote x := fun hq => not_isWordChar_of_isQuote hq hx
  unfold passed
  rw [if_neg hs, if_neg (by simp [hb, hq])]

theorem defaultExport?_word (hc : c.ahead = x :: t) (hw : isWordStart x) (hn : ¬ AtDefault c) :
    defaultExport? c = defaultExport? (c.advance (wordEnd t + 1)) := by
  refine defaultExport?_advance _ fun k hk => ?_
  cases k with
  | zero =>
    rw [Cursor.advance_zero, alone, hc, beq_iff_eq]
    exact ⟨passed_wordChar (isWordChar_of_isWordStart hw) t, hn⟩
  | succ k =>
    have hlt : k < wordEnd t := Nat.lt_of_succ_lt_succ hk
    refine ⟨?_, fun ha => ?_⟩
    · unfold alone
      split
      · rfl
      · rename_i y u hy
        rw [Cursor.ahead_advance, hc, List.drop_succ_cons] at hy
        rw [passed_wordChar (isWordChar_of_lt_wordEnd hlt hy), beq_self_eq_true]
    · obtain ⟨-, -, -, -, -, hb, -⟩ := atDefault_iff.mp ha
      rw [Cursor.behind_advance, hc, List.take_succ_cons] at hb
      exact not_noWord_of_le_wordEnd hw hlt.le _ hb

/-- Whether the search passes the lexeme at a place. -/
def passable (c : Cursor) (x : Char) (t : Text) : Bool :=
  let l := Lexeme.read c.behind x t
  match l.kind with
  | .comment | .string | .word => true
  | .template => passed x t == l.size
  | .regex | .other =>
    (List.range (l.size + 1)).all fun k =>
      alone (c.advance k) && (k == 0 || !(afterDefault? (c.advance k)).isSome)

theorem passable_template (h : passable c x t) (hk : (Lexeme.read c.behind x t).kind = .template) :
    passed x t = (Lexeme.read c.behind x t).size := by
  unfold passable at h
  dsimp only at h
  rw [hk] at h
  exact beq_iff_eq.mp h

theorem passable_flat (h : passable c x t)
    (hk : (Lexeme.read c.behind x t).kind = .regex ∨ (Lexeme.read c.behind x t).kind = .other)
    (hn : ¬ AtDefault c) : ∀ k < (Lexeme.read c.behind x t).size + 1,
      alone (c.advance k) ∧ ¬ AtDefault (c.advance k) := by
  unfold passable at h
  dsimp only at h
  intro k hlt
  have hall : alone (c.advance k) = true ∧ (k = 0 ∨ ¬ AtDefault (c.advance k)) := by
    rcases hk with hk | hk
    all_goals
      rw [hk] at h
      simpa [AtDefault] using List.all_eq_true.mp h k (List.mem_range.mpr hlt)
  refine ⟨hall.1, hall.2.elim ?_ id⟩
  rintro rfl
  rwa [Cursor.advance_zero]

/-- What is known of a lexeme by its kind. -/
theorem shape_of_kind (b : Text) (x : Char) (t : Text) :
    ((Lexeme.read b x t).kind = .comment →
        x = '/' ∧ commentEnd? t = some (Lexeme.read b x t).size) ∧
      ((Lexeme.read b x t).kind = .string →
        isQuote x ∧ stringEnd? x t = some (Lexeme.read b x t).size) ∧
      ((Lexeme.read b x t).kind = .word →
        isWordStart x ∧ wordEnd t = (Lexeme.read b x t).size) := by
  unfold Lexeme.read Lexeme.readFlat
  split
  · simp
  split
  · rename_i hx
    split
    · rename_i n hn
      simp [hx, hn]
    split
    · split <;> simp [Lexeme.single]
    · simp [Lexeme.single]
  split
  · rename_i hq
    split
    · rename_i n hn
      simp [hq, hn]
    · simp [Lexeme.single]
  split
  · rename_i hw
    simp [hw]
  · simp [Lexeme.single]

/-- **A passable lexeme is passed.** -/
theorem defaultExport?_lexeme (hc : c.ahead = x :: t) (hp : passable c x t) (hn : ¬ AtDefault c) :
    defaultExport? c = defaultExport? (c.advance ((Lexeme.read c.behind x t).size + 1)) := by
  obtain ⟨hcomment, hstring, hword⟩ := shape_of_kind c.behind x t
  cases hk : (Lexeme.read c.behind x t).kind with
  | template => rw [defaultExport?_cons hc hn, passable_template hp hk]
  | regex => exact defaultExport?_advance _ (passable_flat hp (Or.inl hk) hn)
  | other => exact defaultExport?_advance _ (passable_flat hp (Or.inr hk) hn)
  | comment =>
    obtain ⟨rfl, hm⟩ := hcomment hk
    exact defaultExport?_comment hc hm hn
  | string =>
    obtain ⟨hq, hm⟩ := hstring hk
    rw [defaultExport?_cons hc hn, passed_quote (Or.inl hq), closingQuote?_of_stringEnd? hm]
    rfl
  | word =>
    obtain ⟨hw, hm⟩ := hword hk
    rw [← hm]
    exact defaultExport?_word hc hw hn

/-! ### Legible scripts -/

/-- Whether a value starts with a slash that opens no comment. -/
def startsRegex (t : Text) : Bool :=
  match t.dropWhile isSpace with
  | '/' :: u => (commentEnd? u).isNone
  | _ => false

theorem startsRegex_space (hx : isSpace x) : startsRegex (x :: t) = startsRegex t := by
  rw [startsRegex, startsRegex, List.dropWhile_cons_of_pos hx]

theorem startsRegex_slash : startsRegex ('/' :: t) ↔ commentEnd? t = none := Option.isNone_iff_eq_none

theorem not_startsRegex (hx : ¬ isSpace x) (hs : x ≠ '/') : ¬ startsRegex (x :: t) := by
  rw [startsRegex, List.dropWhile_cons_of_neg hx]
  split
  · rename_i h
    exact absurd (List.cons.inj h).1 hs
  · exact Bool.false_ne_true

/-- What comes after the line of a value does not change how it starts. -/
theorem startsRegex_line (hx : ¬ isSpace x) (hs : x ≠ '/') (h : ¬ startsRegex u) :
    ¬ startsRegex (u ++ '\n' :: x :: t) := by
  induction u with
  | nil =>
    rw [List.nil_append, startsRegex_space (by decide)]
    exact not_startsRegex hx hs
  | cons y u ih =>
    rw [List.cons_append]
    by_cases hy : isSpace y
    · rw [startsRegex_space hy] at h ⊢
      exact ih h
    by_cases hys : y = '/'
    · subst hys
      rw [startsRegex_slash] at h ⊢
      cases u with
      | nil => exact absurd rfl h
      | cons z u => exact fun hn => h (commentEnd?_eq_none_iff.mpr (commentEnd?_eq_none_iff.mp hn))
    · exact not_startsRegex hy hys

/-- Whether the lexemes from a place on are passable up to the default export, and the export stands
on one line, before a value that does not start with a regular expression. -/
def legibleFrom (c : Cursor) : Bool :=
  match _h : c.ahead with
  | [] => true
  | x :: t =>
    match afterDefault? c with
    | some d =>
      !('\n' ∈ c.ahead.take (c.ahead.length - d.ahead.length)) && !startsRegex d.ahead
    | none => passable c x t && legibleFrom (c.advance ((Lexeme.read c.behind x t).size + 1))
termination_by c.ahead.length
decreasing_by exact Cursor.length_advance_lt (by assumption) _

/-- Whether the search reads a script as its lexemes up to the default export. -/
def legible (code : Text) : Bool := legibleFrom (Cursor.start code)

/-- A default export that is found where the lexemes lead to, on one line and before a value that
does not start with a regular expression. -/
structure FoundAt (c d e : Cursor) : Prop where
  silent : Silent c d
  words : afterDefault? d = some e
  found : defaultExport? c = some (d, e)
  line : '\n' ∉ d.ahead.take (d.ahead.length - e.ahead.length)
  value : ¬ startsRegex e.ahead

/-- **A legible script is searched right**: the search finds the first default export, or there is
none and it finds none. -/
theorem found_of_legibleFrom (h : legibleFrom c) :
    (∃ d e, FoundAt c d e) ∨ Silent c c.finish ∧ defaultExport? c = none := by
  fun_induction legibleFrom c with
  | case1 c hc =>
    refine Or.inr ⟨?_, defaultExport?_nil hc⟩
    rw [Cursor.finish, hc, List.length_nil, Cursor.advance_zero]
    exact .stay c
  | case2 c x t hc d hd =>
    rw [Bool.and_eq_true, Bool.not_eq_true', decide_eq_false_iff_not, Bool.not_eq_true'] at h
    exact Or.inl ⟨c, d, .stay c, hd, defaultExport?_of_some hd, h.1, by rw [h.2]; simp⟩
  | case3 c x t hc hd ih =>
    rw [Bool.and_eq_true] at h
    have hn : ¬ AtDefault c := Option.not_isSome_iff_eq_none.mpr hd
    have hstep := defaultExport?_lexeme hc h.1 hn
    rcases ih h.2 with ⟨d, e, hf⟩ | ⟨hs, hnone⟩
    · exact Or.inl ⟨d, e, .step hc hn hf.silent, hf.words, hstep.trans hf.found, hf.line, hf.value⟩
    · rw [Cursor.finish_advance] at hs
      exact Or.inr ⟨.step hc hn hs, hstep.trans hnone⟩

end Unbundled.Component
