import Unbundled.Proofs.Source.Fillers
import Unbundled.Proofs.Source.Nested
import Unbundled.Proofs.Source.Slices

/-! # Template literals as they are written

What may stand between the backticks of a template literal, said without its reader: text, escapes and
expressions (`IsTemplate`). In an expression there are characters of no kind, strings, closed comments,
braces around a further expression, and template literals (`IsBody`), one in the other to any depth.

The reader keeps a list of what is open around a place. A text is passed (`Passes`) if the reader goes on
behind it, with this or that still open. Each part of the grammar is passed with all that is open around
it (`IsTemplate.passes`, `IsBody.passes`), so a literal ends at its own backtick:

* `read_template`: its lexeme, and the byte at which the reader by index leaves it. -/

namespace Unbundled.Source

/-! ### The grammar -/

/-- A character of an expression that opens nothing and closes nothing. -/
def opensNothing (c : Char) : Bool :=
  !isQuote c && c != backtick && c != '\x7b' && c != '\x7d' && c != '/'

/-- A run of the text of a literal. -/
structure IsRun (s : Text) : Prop where
  chars : ∀ c ∈ s, c ≠ backtick ∧ c ≠ '\\'
  flat : ¬ ['$', '\x7b'] <:+: s

mutual

/-- **What stands between the backticks of a template literal.** A run of text is as long as it can be: an
escape or an expression follows it, or nothing. -/
inductive IsTemplate : Text → Prop
  | nil : IsTemplate []
  | escape {c : Char} {t : Text} (ht : IsTemplate t) : IsTemplate ('\\' :: c :: t)
  | run {s t : Text} (hs : IsRun s) (hend : t = [] ∨ t.head? = some '\\' ∨ ['$', '\x7b'] <+: t)
    (ht : IsTemplate t) : IsTemplate (s ++ t)
  | expression {b t : Text} (hb : IsBody b) (ht : IsTemplate t) :
    IsTemplate ('$' :: '\x7b' :: (b ++ '\x7d' :: t))

/-- **What stands between the braces of an expression.** A string is closed on its line, unless a backslash
takes the end of the line along, and a line comment is closed by its newline. -/
inductive IsBody : Text → Prop
  | nil : IsBody []
  | char {c : Char} {t : Text} (hc : opensNothing c) (ht : IsBody t) : IsBody (c :: t)
  | string {q : Char} {raw t : Text} (hq : isQuote q) (hraw : Inside q raw) (ht : IsBody t) :
    IsBody (quoted q raw ++ t)
  | line {s t : Text} (hs : '\n' ∉ s) (ht : IsBody t) : IsBody ('/' :: '/' :: (s ++ '\n' :: t))
  | block {s t : Text} (hs : ¬ ['*', '/'] <:+: s) (ht : IsBody t) :
    IsBody ('/' :: '*' :: (s ++ '*' :: '/' :: t))
  | braces {b t : Text} (hb : IsBody b) (ht : IsBody t) : IsBody ('\x7b' :: (b ++ '\x7d' :: t))
  | template {s t : Text} (hs : IsTemplate s) (ht : IsBody t) :
    IsBody (backtick :: (s ++ backtick :: t))

end

variable {place still next : Nesting} {outer : List Nat} {depth : Nat} {c : Char} {s t u : Text}

/-! ### Passing a text -/

/-- Before `u`, the text `s` is passed from one place of a template literal to another. -/
def Passes (place still : Nesting) (s u : Text) : Prop :=
  ∀ behind, templateEnd? place behind (s ++ u) =
    (templateEnd? still (s.reverse ++ behind) u).map (· + s.length)

theorem passes_nil (place : Nesting) (u : Text) : Passes place place [] u := by
  intro behind
  exact Option.map_id'.symm

theorem Passes.append (hs : Passes place still s (t ++ u)) (ht : Passes still next t u) :
    Passes place next (s ++ t) u := by
  intro behind
  rw [List.append_assoc, hs, ht, Option.map_map, List.reverse_append, List.append_assoc,
    List.length_append, Nat.add_comm s.length]
  simp only [Function.comp_def, Nat.add_assoc]

theorem passes_cons (h : ∀ behind, place.step behind c (s ++ u) = (some still, s.length)) :
    Passes place still (c :: s) u := by
  intro behind
  rw [List.cons_append, templateEnd?, h]
  dsimp only
  rw [List.take_left, List.drop_left, List.reverse_cons, List.append_assoc, List.length_cons]
  rfl

/-! ### Text -/

theorem passes_escape (outer : List Nat) (c : Char) (u : Text) :
    Passes (.text outer) (.text outer) ['\\', c] u :=
  passes_cons fun _ => rfl

theorem passes_openExpression (outer : List Nat) (u : Text) :
    Passes (.text outer) (.expression 0 outer) ['$', '\x7b'] u :=
  passes_cons fun _ => rfl

theorem passes_closeExpression (outer : List Nat) (u : Text) :
    Passes (.expression 0 outer) (.text outer) ['\x7d'] u :=
  passes_cons fun _ => rfl

theorem passes_char (hc : c ≠ backtick ∧ c ≠ '\\') (hu : c = '$' → u.head? ≠ some '\x7b') :
    Passes (.text outer) (.text outer) [c] u := by
  refine passes_cons fun _ => ?_
  unfold Nesting.step
  dsimp only
  rw [if_neg hc.2, if_neg hc.1, if_neg]
  · rfl
  · simpa using hu

/-- A run of text is passed, unless a brace after it makes an expression of its last dollar. -/
theorem IsRun.passes (hs : IsRun s) (hu : u.head? ≠ some '\x7b') :
    Passes (.text outer) (.text outer) s u := by
  induction s with
  | nil => exact passes_nil _ u
  | cons c s ih =>
    have htail : IsRun s := ⟨fun x hx => hs.chars x (List.mem_cons_of_mem c hx),
      fun h => hs.flat (h.trans (List.suffix_cons c s).isInfix)⟩
    refine Passes.append (s := [c]) (passes_char (hs.chars c List.mem_cons_self) ?_) (ih htail)
    rintro rfl hhead
    cases s with
    | nil => exact hu hhead
    | cons d s =>
      obtain rfl : d = '\x7b' := by simpa using hhead
      exact hs.flat (List.prefix_append _ s).isInfix

/-! ### Expressions -/

theorem passes_flat (hc : c ≠ backtick ∧ c ≠ '\x7b' ∧ c ≠ '\x7d')
    (h : ∀ behind, (Lexeme.readFlat behind c (s ++ u)).size = s.length) :
    Passes (.expression depth outer) (.expression depth outer) (c :: s) u := by
  refine passes_cons fun behind => ?_
  unfold Nesting.step
  dsimp only
  rw [if_neg hc.2.1, if_neg hc.2.2, if_neg hc.1, h]

theorem passes_openBrace (depth : Nat) (outer : List Nat) (u : Text) :
    Passes (.expression depth outer) (.expression (depth + 1) outer) ['\x7b'] u :=
  passes_cons fun _ => rfl

theorem passes_closeBrace (depth : Nat) (outer : List Nat) (u : Text) :
    Passes (.expression (depth + 1) outer) (.expression depth outer) ['\x7d'] u :=
  passes_cons fun _ => rfl

theorem passes_openTemplate (depth : Nat) (outer : List Nat) (u : Text) :
    Passes (.expression depth outer) (.text (depth :: outer)) [backtick] u :=
  passes_cons fun _ => rfl

theorem passes_closeTemplate (depth : Nat) (outer : List Nat) (u : Text) :
    Passes (.text (depth :: outer)) (.expression depth outer) [backtick] u :=
  passes_cons fun _ => rfl

theorem opensNothing_iff : opensNothing c ↔
    ¬ isQuote c ∧ c ≠ backtick ∧ c ≠ '\x7b' ∧ c ≠ '\x7d' ∧ c ≠ '/' := by
  simp [opensNothing, and_assoc]

theorem passes_string {q : Char} {raw : Text} (hq : isQuote q) (hraw : Inside q raw) (u : Text) :
    Passes (.expression depth outer) (.expression depth outer) (quoted q raw) u := by
  have hne : q ≠ '/' ∧ q ≠ backtick ∧ q ≠ '\x7b' ∧ q ≠ '\x7d' := by
    rcases isQuote_iff.mp hq with rfl | rfl <;> decide
  refine passes_flat hne.2 fun behind => ?_
  have hend := stringEnd?_append hq u hraw
  rw [Lexeme.readFlat, if_neg hne.1, if_pos hq, List.append_assoc, List.singleton_append, hend]
  simp

theorem passes_comment (h : commentEnd? (s ++ u) = some s.length) :
    Passes (.expression depth outer) (.expression depth outer) ('/' :: s) u := by
  refine passes_flat (by decide) fun behind => ?_
  rw [Lexeme.readFlat, if_pos rfl, h]

/-- A character that opens no word is passed alone. -/
theorem passes_single (hc : opensNothing c) (hw : ¬ isWordStart c) (u : Text) :
    Passes (.expression depth outer) (.expression depth outer) [c] u := by
  obtain ⟨hq, htick, hopen, hclose, hslash⟩ := opensNothing_iff.mp hc
  refine passes_flat ⟨htick, hopen, hclose⟩ fun behind => ?_
  rw [Lexeme.readFlat, if_neg hslash, if_neg hq, if_neg hw]
  rfl

theorem opensNothing_of_isWordChar (h : isWordChar c) : opensNothing c := by
  have hne : ∀ d, ¬ isWordChar d → c ≠ d := by
    rintro d hd rfl
    exact hd h
  exact opensNothing_iff.mpr ⟨fun hq => not_isWordChar_of_isQuote hq h, hne _ (by decide),
    hne _ (by decide), hne _ (by decide), hne _ (by decide)⟩

theorem passes_word (hs : ∀ x ∈ s, isWordChar x) (hu : NoWord u) :
    Passes (.expression depth outer) (.expression depth outer) s u := by
  induction s with
  | nil => exact passes_nil _ u
  | cons c s ih =>
    have hc := opensNothing_of_isWordChar (hs c List.mem_cons_self)
    have htail : ∀ x ∈ s, isWordChar x := fun x hx => hs x (List.mem_cons_of_mem c hx)
    by_cases hw : isWordStart c
    · obtain ⟨_, htick, hopen, hclose, _⟩ := opensNothing_iff.mp hc
      refine passes_flat ⟨htick, hopen, hclose⟩ fun behind => ?_
      have hread : Lexeme.read behind c (s ++ u) = ⟨.word, wordEnd (s ++ u)⟩ := Lexeme.read_word hw
      rw [Lexeme.read, if_neg htick] at hread
      rw [hread, wordEnd_append htail hu]
    · exact Passes.append (s := [c]) (passes_single hc hw _) (ih htail)

/-- A character of no kind is passed. The reader takes a word at once, so what follows the character is
passed with it, and from there on without it. -/
theorem passes_silent (hc : opensNothing c) (u : Text) :
    Passes (.expression depth outer) (.expression depth outer) [c] u := by
  by_cases hw : isWordStart c
  · have hword : ∀ x ∈ u.takeWhile isWordChar, isWordChar x := fun x hx => List.mem_takeWhile_imp hx
    have hrest : NoWord (u.dropWhile isWordChar) := Text.head?_dropWhile isWordChar u
    have hboth : Passes (.expression depth outer) (.expression depth outer)
        (c :: u.takeWhile isWordChar) (u.dropWhile isWordChar) :=
      passes_word (by simpa [isWordChar_of_isWordStart hw] using hword) hrest
    have hafter : Passes (.expression depth outer) (.expression depth outer)
        (u.takeWhile isWordChar) (u.dropWhile isWordChar) := passes_word hword hrest
    intro behind
    have h1 := hboth behind
    have h2 := hafter (c :: behind)
    rw [List.cons_append, List.takeWhile_append_dropWhile] at h1
    rw [List.takeWhile_append_dropWhile] at h2
    rw [List.singleton_append, h1, List.reverse_singleton, List.singleton_append, h2, Option.map_map,
      List.reverse_cons, List.append_assoc]
    rfl
  · exact passes_single hc hw u

/-! ### The grammar is passed -/

mutual

theorem IsTemplate.passes {s u : Text} (h : IsTemplate s) (outer : List Nat)
    (hu : u.head? ≠ some '\x7b') : Passes (.text outer) (.text outer) s u := by
  match h with
  | .nil => exact passes_nil _ u
  | @IsTemplate.escape c t ht => exact (passes_escape outer c (t ++ u)).append (ht.passes outer hu)
  | @IsTemplate.run s t hs hend ht =>
    refine (hs.passes ?_).append (ht.passes outer hu)
    rcases hend with rfl | hend | ⟨v, rfl⟩
    · exact hu
    · obtain ⟨v, rfl⟩ := List.head?_eq_some_iff.mp hend
      simp
    · simp
  | @IsTemplate.expression b t hb ht =>
    have hopen := passes_openExpression outer (b ++ ('\x7d' :: t) ++ u)
    have hclose := (passes_closeExpression outer (t ++ u)).append (ht.passes outer hu)
    exact hopen.append ((hb.passes 0 outer).append hclose)

theorem IsBody.passes {s u : Text} (h : IsBody s) (depth : Nat) (outer : List Nat) :
    Passes (.expression depth outer) (.expression depth outer) s u := by
  match h with
  | .nil => exact passes_nil _ u
  | @IsBody.char c t hc ht => exact (passes_silent hc (t ++ u)).append (ht.passes depth outer)
  | @IsBody.string q raw t hq hraw ht =>
    exact (passes_string hq hraw (t ++ u)).append (ht.passes depth outer)
  | @IsBody.line s t hs ht =>
    have hcomment : Passes (.expression depth outer) (.expression depth outer)
        ('/' :: '/' :: (s ++ ['\n'])) (t ++ u) :=
      passes_comment (by simpa using commentEnd?_line hs (t ++ u))
    simpa using hcomment.append (ht.passes depth outer)
  | @IsBody.block s t hs ht =>
    have hcomment : Passes (.expression depth outer) (.expression depth outer)
        ('/' :: '*' :: (s ++ ['*', '/'])) (t ++ u) :=
      passes_comment (by simpa using commentEnd?_block hs (t ++ u))
    simpa using hcomment.append (ht.passes depth outer)
  | @IsBody.braces b t hb ht =>
    have hopen := passes_openBrace depth outer (b ++ ('\x7d' :: t) ++ u)
    have hclose := (passes_closeBrace depth outer (t ++ u)).append (ht.passes depth outer)
    exact hopen.append ((hb.passes (depth + 1) outer).append hclose)
  | @IsBody.template s t hs ht =>
    have hopen := passes_openTemplate depth outer (s ++ (backtick :: t) ++ u)
    have hclose := (passes_closeTemplate depth outer (t ++ u)).append (ht.passes depth outer)
    exact hopen.append ((hs.passes (depth :: outer) (by simp; decide)).append hclose)

end

/-! ### Whole literals -/

/-- **A template literal is read from its opening backtick to its own closing one**, whatever stands before
it and follows it, and the reader by index leaves it at the byte behind that backtick. -/
theorem read_template (h : IsTemplate s) (before rest : Text) :
    Lexeme.read before.reverse backtick (s ++ backtick :: rest) = ⟨.template, s.length + 1⟩ ∧
    Indexed.template? (before ++ backtick :: (s ++ backtick :: rest)) (Text.bytes before + 1) =
      some (Text.bytes (before ++ backtick :: (s ++ [backtick]))) := by
  have hclose : ∀ behind, templateEnd? (.text []) behind (backtick :: rest) = some 1 := by
    intro behind
    rw [templateEnd?]
    rfl
  have hread : Lexeme.read before.reverse backtick (s ++ backtick :: rest) =
      ⟨.template, s.length + 1⟩ := by
    rw [Lexeme.read, if_pos rfl, h.passes [] (by simp; decide), hclose, Option.map_some,
      Option.getD_some, Nat.add_comm]
  refine ⟨hread, ?_⟩
  -- the place of the opening backtick
  let c : Cursor := ⟨before.reverse, backtick :: (s ++ backtick :: rest)⟩
  have hwhole : c.whole = before ++ backtick :: (s ++ backtick :: rest) := by
    rw [Cursor.whole, List.reverse_reverse]
  have hoffset : c.offset = Text.bytes before := Text.bytes_reverse before
  have hahead : c.ahead = backtick :: (s ++ [backtick]) ++ rest := by simp [c]
  have hlen : s.length + 1 + 1 = (backtick :: (s ++ [backtick])).length := by simp
  rw [← hoffset, Indexed.template?_offset hwhole rfl, hread]
  dsimp only
  rw [hlen, Indexed.offset_advance_length hahead, hoffset, Text.bytes_append]

/-- A literal with a literal in an expression. Strings, comments and escapes in it hold braces and
backticks, and both literals end with a dollar. -/
theorem isTemplate_nested :
    IsTemplate "$\\`$\x7b\x7b'\x7d'\x7d/*`*/`$\x7bx\x7d$`//\x7d\n\x7d$".toList := by
  have hrun : IsRun ['$'] := ⟨List.forall_mem_singleton.mpr (by decide), by decide⟩
  have hdollar : IsTemplate ['$'] := @IsTemplate.run ['$'] [] hrun (Or.inl rfl) .nil
  have hinner := IsTemplate.expression (@IsBody.char 'x' [] (by decide) .nil) hdollar
  have hgroup := @IsBody.string '\x27' ['\x7d'] [] (by decide) ⟨by decide, by decide, by decide⟩ .nil
  have hline := @IsBody.line ['\x7d'] [] (by decide) .nil
  have hbody := hgroup.braces (@IsBody.block [backtick] _ (by decide) (.template hinner hline))
  have hescape := @IsTemplate.escape backtick _ (.expression hbody hdollar)
  exact @IsTemplate.run ['$'] _ hrun (Or.inr (Or.inl rfl)) hescape

/-- The literal behind an opening parenthesis, with another backtick after it. -/
theorem read_template_nested :
    IsTemplate "$\\`$\x7b\x7b'\x7d'\x7d/*`*/`$\x7bx\x7d$`//\x7d\n\x7d$".toList ∧
    Lexeme.read ['('] backtick
      "$\\`$\x7b\x7b'\x7d'\x7d/*`*/`$\x7bx\x7d$`//\x7d\n\x7d$`)`".toList = ⟨.template, 29⟩ ∧
    Indexed.template?
      "(`$\\`$\x7b\x7b'\x7d'\x7d/*`*/`$\x7bx\x7d$`//\x7d\n\x7d$`)`".toList 2 = some 31 :=
  ⟨isTemplate_nested, read_template isTemplate_nested ['('] ")`".toList⟩

end Unbundled.Source
