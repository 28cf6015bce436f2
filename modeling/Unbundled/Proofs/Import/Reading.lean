import Unbundled.Proofs.Import.Reached

/-! # The two ways to read

Between two imports the scan is either at a place of the script, or within the clause of a
declaration, which it takes for one of `import` or of `export` (`Reading`). Where a known text lies
ahead, it is passed in one of these ways and leaves the scan in one of them; the lemmas `readOn_…`
say so for white space, marks, words and literals, with any text before and after.

* `clause_word`, `scanFrom_word`: the words of a clause, and of the script.
* `readOn_from`: the literal after `from` belongs to the declaration whose clause is read. -/

namespace Unbundled.Import

open Source

/-- How the scan reads what is ahead. -/
inductive Reading
  | script
  | clause (kind : Kind)
  deriving DecidableEq, Repr

/-- The import that a reader has found, and those after the place where it has ended. -/
def resume (r : Option Import × Cursor) : List Import := r.1.toList ++ scanFrom r.2

/-- The imports from a place on, for each way to read. -/
def readOn : Reading → Cursor → List Import
  | .script, c => scanFrom c
  | .clause kind, c => resume (clause kind c)

theorem readOn_script (c : Cursor) : readOn .script c = scanFrom c := rfl

theorem readOn_clause (kind : Kind) (c : Cursor) : readOn (.clause kind) c = resume (clause kind c) :=
  rfl

theorem resume_none (c : Cursor) : resume (none, c) = scanFrom c := rfl

theorem resume_some (i : Import) (c : Cursor) : resume (some i, c) = i :: scanFrom c := rfl

variable {b w t g : Text} {x : Char} {c d : Cursor}

/-! ### White space and comments -/

theorem triviaEnd_drop_triviaEnd (t : Text) : triviaEnd (t.drop (triviaEnd t)) = 0 := by
  fun_induction triviaEnd t with
  | case1 => rw [List.drop_zero, triviaEnd]
  | case2 x t hx ih => rwa [Nat.add_comm, List.drop_succ_cons]
  | case3 t n hn hx ih =>
    rwa [Nat.add_assoc, Nat.add_comm, List.drop_succ_cons, ← List.drop_drop]
  | case4 t hn hx => rw [List.drop_zero, triviaEnd, if_neg hx, if_pos rfl, hn]
  | case5 x t hx hs => rw [List.drop_zero, triviaEnd, if_neg hx, if_neg hs]

theorem skipTrivia_skipTrivia (c : Cursor) : skipTrivia (skipTrivia c) = skipTrivia c := by
  rw [skipTrivia]
  rw [show triviaEnd (skipTrivia c).ahead = 0 from triviaEnd_drop_triviaEnd c.ahead,
    Cursor.advance_zero]

theorem skipTrivia_space (hx : isSpace x) :
    skipTrivia ⟨b, x :: t⟩ = skipTrivia ⟨x :: b, t⟩ := by
  have h : (⟨b, x :: t⟩ : Cursor).advance 1 = ⟨x :: b, t⟩ := rfl
  rw [skipTrivia, triviaEnd, if_pos hx, ← Cursor.advance_advance, h, skipTrivia]

theorem skipTrivia_gap (hg : ∀ y ∈ g, isSpace y) :
    skipTrivia ⟨b, g ++ t⟩ = skipTrivia ⟨g.reverse ++ b, t⟩ := by
  induction g generalizing b with
  | nil => rfl
  | cons y g ih =>
    have hy := hg y List.mem_cons_self
    rw [List.cons_append, skipTrivia_space hy, ih fun z hz => hg z (List.mem_cons_of_mem y hz),
      List.reverse_cons, List.append_assoc, List.singleton_append]

/-- A character that is not passed over between tokens. -/
def isSolid (x : Char) : Bool := !isSpace x && x != '/'

theorem skipTrivia_solid (hx : isSolid x) : skipTrivia ⟨b, x :: t⟩ = ⟨b, x :: t⟩ := by
  simp only [isSolid, Bool.and_eq_true, Bool.not_eq_true', bne_iff_ne, ne_eq] at hx
  rw [skipTrivia, triviaEnd, if_neg (by simp [hx.1]), if_neg hx.2, Cursor.advance_zero]

theorem isSolid_of_isWordChar (h : isWordChar x) : isSolid x := by
  have hs : ¬ isSpace x := fun hs => not_isWordChar_of_isSpace hs h
  have hc : x ≠ '/' := by rintro rfl; exact absurd h (by decide)
  simp [isSolid, hs, hc]

theorem isSolid_of_isQuote (h : isQuote x) : isSolid x := by
  rcases isQuote_iff.mp h with rfl | rfl <;> decide

theorem isSolid_of_isPlain (h : isPlain x) (hs : ¬ isSpace x) : isSolid x := by
  simp only [isPlain, Bool.and_eq_true] at h
  simp [isSolid, hs, h.1.1.1]

/-! ### The script -/

/-- A lexeme that is no word is passed. -/
theorem scanFrom_other {l : Lexeme} (h : c.ahead = x :: t) (hl : Lexeme.read c.behind x t = l)
    (hk : l.kind ≠ .word) : scanFrom c = scanFrom (c.advance (l.size + 1)) := by
  rw [scanFrom_cons h, step, hl, if_neg fun hw => hk hw.1]
  rfl

theorem scanFrom_plain (hx : isPlain x) : scanFrom ⟨b, x :: t⟩ = scanFrom ⟨x :: b, t⟩ := by
  have h : (⟨b, x :: t⟩ : Cursor).ahead = x :: t := rfl
  exact scanFrom_other h (Lexeme.read_plain hx) (by decide)

theorem scanFrom_plains {s : Text} (hs : ∀ x ∈ s, isPlain x) :
    scanFrom ⟨b, s ++ t⟩ = scanFrom ⟨s.reverse ++ b, t⟩ := by
  induction s generalizing b with
  | nil => rfl
  | cons x s ih =>
    rw [List.cons_append, scanFrom_plain (hs x List.mem_cons_self),
      ih fun y hy => hs y (List.mem_cons_of_mem x hy), List.reverse_cons, List.append_assoc,
      List.singleton_append]

theorem scanFrom_skipTrivia (c : Cursor) : scanFrom (skipTrivia c) = scanFrom c := by
  unfold skipTrivia
  generalize ht : c.ahead = t
  fun_induction triviaEnd t generalizing c with
  | case1 => rw [Cursor.advance_zero]
  | case2 x t hx ih =>
    rw [← Cursor.advance_advance, ih (c.advance 1) (by rw [Cursor.ahead_advance, ht]; rfl)]
    exact (scanFrom_other ht (Lexeme.read_plain (isPlain_of_isSpace hx)) (by decide)).symm
  | case3 t n hn hx ih =>
    rw [Nat.add_comm 1 n, ← Cursor.advance_advance,
      ih (c.advance (n + 1)) (by rw [Cursor.ahead_advance, ht]; rfl)]
    exact (scanFrom_other ht (Lexeme.read_comment hn) (by simp)).symm
  | case4 => rw [Cursor.advance_zero]
  | case5 => rw [Cursor.advance_zero]

/-- A closed string is passed. -/
theorem scanFrom_quoted {q : Char} {raw : Text} (hq : isQuote q) (h : Inside q raw) :
    scanFrom ⟨b, quoted q raw ++ t⟩ = scanFrom ⟨(quoted q raw).reverse ++ b, t⟩ := by
  have ha : (⟨b, quoted q raw ++ t⟩ : Cursor).ahead = q :: (raw ++ q :: t) := quoted_append q raw t
  rw [scanFrom_other ha (Lexeme.read_string hq (stringEnd?_append hq t h)) (by simp),
    ← length_quoted, Cursor.advance_length rfl]

/-! ### Words -/

/-- The turn at a word of the script. -/
theorem turn_word (hw : IsWord w) (ht : NoWord t) (hb : lastSolid? b ≠ some '.') :
    Turn ⟨b, w ++ t⟩ (afterWord w ⟨w.reverse ++ b, t⟩).1 (afterWord w ⟨w.reverse ++ b, t⟩).2 := by
  obtain ⟨x, u, rfl, hx, hend⟩ := hw.shape ht
  have hadv := @Cursor.advance_length ⟨b, x :: u ++ t⟩ (x :: u) t rfl
  refine ⟨x, u ++ t, rfl, ?_⟩
  rw [step, Lexeme.read_word hx, if_pos ⟨rfl, hb⟩, hend, List.take_left, ← hadv]
  rfl

/-- A word of the script. -/
theorem scanFrom_word (hw : IsWord w) (ht : NoWord t) (hb : lastSolid? b ≠ some '.') :
    scanFrom ⟨b, w ++ t⟩ = resume (afterWord w ⟨w.reverse ++ b, t⟩) := (turn_word hw ht hb).scanFrom_eq

/-- The name of a member is passed. -/
theorem scanFrom_member (hw : IsWord w) (ht : NoWord t) (hb : lastSolid? b = some '.') :
    scanFrom ⟨b, w ++ t⟩ = scanFrom ⟨w.reverse ++ b, t⟩ := by
  obtain ⟨x, u, rfl, hx, hend⟩ := hw.shape ht
  have hadv := @Cursor.advance_length ⟨b, x :: u ++ t⟩ (x :: u) t rfl
  have ha : (⟨b, x :: u ++ t⟩ : Cursor).ahead = x :: (u ++ t) := rfl
  rw [scanFrom_cons ha, step, Lexeme.read_word hx, if_neg fun h => h.2 hb, hend, ← hadv]
  rfl

/-- Most words are passed. -/
theorem scanFrom_name (hw : IsWord w) (ht : NoWord t) (h1 : w ≠ "import".toList)
    (h2 : w ≠ "export".toList) : scanFrom ⟨b, w ++ t⟩ = scanFrom ⟨w.reverse ++ b, t⟩ := by
  by_cases hb : lastSolid? b = some '.'
  · exact scanFrom_member hw ht hb
  · rw [scanFrom_word hw ht hb, afterWord, if_neg h1, if_neg h2, resume_none]

/-! ### Clauses -/

theorem clause_nil {kind : Kind} (h : (skipTrivia c).ahead = []) :
    clause kind c = (none, skipTrivia c) := by
  rw [clause]
  split
  · rfl
  · rename_i hx
    rw [h] at hx
    exact absurd hx (by simp)

theorem clause_cons {kind : Kind} (h : (skipTrivia c).ahead = x :: t) :
    clause kind c =
      if x = '\x7b' then
        match t.findIdx? (· = '\x7d') with
        | some n => clause kind ((skipTrivia c).advance (n + 2))
        | none => (none, (skipTrivia c).finish)
      else if x = '*' || x = ',' then clause kind ((skipTrivia c).advance 1)
      else if isWordStart x then
        if x :: t.take (wordEnd t) = "from".toList &&
            atQuote (skipTrivia ((skipTrivia c).advance (wordEnd t + 1))) then
          literalOrQuote kind (skipTrivia ((skipTrivia c).advance (wordEnd t + 1)))
        else clause kind ((skipTrivia c).advance (wordEnd t + 1))
      else (none, skipTrivia c) := by
  rw [clause]
  split
  · rename_i hx
    rw [h] at hx
    exact absurd hx (by simp)
  · rename_i hx
    rw [h] at hx
    obtain ⟨rfl, rfl⟩ := List.cons.inj hx
    rfl

theorem clause_skipTrivia (kind : Kind) (c : Cursor) :
    clause kind (skipTrivia c) = clause kind c := by
  cases h : (skipTrivia c).ahead with
  | nil => rw [clause_nil h, clause_nil (by rwa [skipTrivia_skipTrivia]), skipTrivia_skipTrivia]
  | cons x t =>
    rw [clause_cons h, clause_cons (by rwa [skipTrivia_skipTrivia]), skipTrivia_skipTrivia]

/-! ### Readers from the next token on -/

/-- The argument of `import(…)`, from its first character on. -/
def argumentHere (c : Cursor) : Option Import × Cursor :=
  if atQuote c then
    match literal? .dynamic c with
    | some (i, d) =>
      let close := (skipTrivia d).ahead.head?
      (if close = some ')' ∨ close = some ',' then some i else none, d)
    | none => (none, c)
  else (none, c)

theorem onward_argumentHere (c : Cursor) : c.Onward (argumentHere c).2 := by
  unfold argumentHere
  split
  · split
    · rename_i h
      exact onward_literal? h
    · exact Cursor.Onward.refl c
  · exact Cursor.Onward.refl c

/-- What follows the word `import`, from its first character on. -/
def importHere (c : Cursor) : Option Import × Cursor :=
  if atQuote c then literalOrQuote .static c
  else if c.ahead.head? = some '(' then dynamicArgument (c.advance 1)
  else if c.ahead.head? = some '.' then (none, c.advance 1)
  else clause .static c

theorem onward_importHere (c : Cursor) : c.Onward (importHere c).2 := by
  unfold importHere
  split
  · exact onward_literalOrQuote _ _
  split
  · exact (Cursor.onward_advance _ _).trans (onward_dynamicArgument _)
  split
  · exact Cursor.onward_advance _ _
  · exact onward_clause _ _

/-- What follows the word `export`, from its first character on. -/
def exportHere (c : Cursor) : Option Import × Cursor :=
  if c.ahead.head? = some '*' ∨ c.ahead.head? = some '\x7b' then clause .reexport c else (none, c)

theorem onward_exportHere (c : Cursor) : c.Onward (exportHere c).2 := by
  unfold exportHere
  split
  · exact onward_clause _ _
  · exact Cursor.Onward.refl c

/-- A clause ends before a character that it cannot hold. -/
theorem clause_stop {kind : Kind} (hx : isSolid x) (h1 : x ≠ '\x7b')
    (h2 : (x = '*' || x = ',') = false) (h3 : ¬ isWordStart x) : readOn (.clause kind) ⟨b, x :: t⟩ = scanFrom ⟨b, x :: t⟩ := by
  have hs := @skipTrivia_solid b t x hx
  rw [readOn_clause, clause_cons (by rw [hs]), if_neg h1, if_neg (by simp [h2]), if_neg h3, hs,
    resume_none]

/-- A clause goes on after a word. Only `from` before a quote is more than a name. -/
theorem clause_of_word {kind : Kind} (hw : IsWord w) (ht : NoWord t)
    (hf : w = "from".toList → atQuote (skipTrivia ⟨w.reverse ++ b, t⟩) = false) :
    clause kind ⟨b, w ++ t⟩ = clause kind ⟨w.reverse ++ b, t⟩ := by
  obtain ⟨x, u, rfl, hx, hend⟩ := hw.shape ht
  have hs := @skipTrivia_solid b (u ++ t) x (isSolid_of_isWordChar (isWordChar_of_isWordStart hx))
  have h1 : x ≠ '\x7b' := by rintro rfl; exact absurd hx (by decide)
  have h2 : (x = '*' || x = ',') = false := by
    rw [Bool.or_eq_false_iff, decide_eq_false_iff_not, decide_eq_false_iff_not]
    constructor <;> rintro rfl <;> exact absurd hx (by decide)
  have hadv := @Cursor.advance_length ⟨b, x :: u ++ t⟩ (x :: u) t rfl
  rw [List.cons_append] at hadv ⊢
  rw [clause_cons (by rw [hs]), if_neg h1, if_neg (by simp [h2]), if_pos hx, hs, hend,
    List.take_left, ← List.length_cons (a := x), hadv]
  rw [if_neg]
  intro h
  simp only [Bool.and_eq_true, decide_eq_true_eq] at h
  exact absurd h.2 (by rw [hf h.1]; decide)

theorem clause_word {kind : Kind} (hw : IsWord w) (ht : NoWord t)
    (hf : w = "from".toList → atQuote (skipTrivia ⟨w.reverse ++ b, t⟩) = false) :
    readOn (.clause kind) ⟨b, w ++ t⟩ = readOn (.clause kind) ⟨w.reverse ++ b, t⟩ :=
  congrArg resume (clause_of_word hw ht hf)

/-- The text of a brace list. -/
def braces (l : Text) : Text := '\x7b' :: (l ++ ['\x7d'])

theorem braces_append (l t : Text) : braces l ++ t = '\x7b' :: (l ++ '\x7d' :: t) := by
  rw [braces, List.cons_append, List.append_assoc, List.singleton_append]

theorem length_braces (l : Text) : (braces l).length = l.length + 2 := by
  rw [braces, List.length_cons, List.length_append, List.length_singleton]

/-- A clause goes on after the first closing brace of a brace list. -/
theorem clause_of_braces {kind : Kind} {l : Text} (h : '\x7d' ∉ l) :
    clause kind ⟨b, braces l ++ t⟩ = clause kind ⟨(braces l).reverse ++ b, t⟩ := by
  have hadv := @Cursor.advance_length ⟨b, braces l ++ t⟩ (braces l) t rfl
  have hfind : (l ++ '\x7d' :: t).findIdx? (· = '\x7d') = some l.length := by
    rw [List.findIdx?_eq_some_iff_getElem]
    refine ⟨by simp, by simp, ?_⟩
    intro j hj he
    rw [List.getElem_append_left hj, decide_eq_true_eq] at he
    exact h (he ▸ List.getElem_mem hj)
  rw [length_braces, braces_append] at hadv
  have hs := @skipTrivia_solid b (l ++ '\x7d' :: t) '\x7b' (by decide)
  rw [braces_append, clause_cons (by rw [hs]), if_pos rfl, hfind, hs]
  exact congrArg (clause kind) hadv

/-- A brace list is passed up to its first closing brace. -/
theorem clause_braces {kind : Kind} {l : Text} (h : '\x7d' ∉ l) :
    readOn (.clause kind) ⟨b, braces l ++ t⟩ =
      readOn (.clause kind) ⟨(braces l).reverse ++ b, t⟩ := congrArg resume (clause_of_braces h)

/-- A clause goes on after a star or a comma. -/
theorem clause_of_mark {kind : Kind} (hx : (x = '*' || x = ',') = true) :
    clause kind ⟨b, x :: t⟩ = clause kind ⟨x :: b, t⟩ := by
  have h1 : isSolid x ∧ x ≠ '\x7b' := by
    simp only [Bool.or_eq_true, decide_eq_true_eq] at hx
    rcases hx with rfl | rfl <;> decide
  have hs := @skipTrivia_solid b t x h1.1
  rw [clause_cons (by rw [hs]), if_neg h1.2, if_pos hx, hs]
  rfl

/-! ### Both ways to read -/

variable {m : Reading}

theorem readOn_skipTrivia (m : Reading) (c : Cursor) : readOn m (skipTrivia c) = readOn m c := by
  cases m with
  | script => exact scanFrom_skipTrivia c
  | clause kind => rw [readOn_clause, clause_skipTrivia, readOn_clause]

/-- White space is passed. -/
theorem readOn_gap (hg : ∀ y ∈ g, isSpace y) :
    readOn m ⟨b, g ++ t⟩ = readOn m ⟨g.reverse ++ b, t⟩ := by
  rw [← readOn_skipTrivia, skipTrivia_gap hg, readOn_skipTrivia]

/-- Stars and commas are passed. -/
theorem readOn_mark (hx : (x = '*' || x = ',') = true) :
    readOn m ⟨b, x :: t⟩ = readOn m ⟨x :: b, t⟩ := by
  cases m with
  | script => exact scanFrom_plain (isPlain_of_mark hx)
  | clause kind => exact congrArg resume (clause_of_mark hx)

/-- A literal by itself is passed, and is no part of a clause. -/
theorem readOn_quoted {q : Char} {raw : Text} (hq : isQuote q) (h : Inside q raw) :
    readOn m ⟨b, quoted q raw ++ t⟩ = scanFrom ⟨(quoted q raw).reverse ++ b, t⟩ := by
  rw [← scanFrom_quoted hq h]
  cases m with
  | script => rfl
  | clause kind =>
    have hx : q ≠ '\x7b' ∧ (q = '*' || q = ',') = false ∧ ¬ isWordStart q := by
      rcases isQuote_iff.mp hq with rfl | rfl <;> decide
    rw [quoted_append]
    exact clause_stop (isSolid_of_isQuote hq) hx.1 hx.2.1 hx.2.2

/-! ### Literals -/

/-- The import whose literal starts at byte `n`. -/
def specifier (kind : Kind) (n : Nat) (q : Char) (raw : Text) : Import :=
  ⟨n, n + Text.bytes (quoted q raw), raw, kind⟩

theorem literal?_quoted (kind : Kind) {q : Char} {raw : Text} (hq : isQuote q) (h : Inside q raw) :
    literal? kind ⟨b, quoted q raw ++ t⟩ =
      some (specifier kind (Text.bytes b) q raw, ⟨(quoted q raw).reverse ++ b, t⟩) := by
  have hadv := @Cursor.advance_length ⟨b, quoted q raw ++ t⟩ (quoted q raw) t rfl
  rw [length_quoted, quoted_append] at hadv
  have htake : (raw ++ q :: t).take (raw.length + 1) = raw ++ [q] := by
    rw [List.take_length_add_append, List.take_succ_cons, List.take_zero]
  rw [quoted_append, literal?]
  simp only [stringEnd?_append hq t h, Option.map_some, htake, hadv, List.dropLast_concat]
  rfl

theorem literalOrQuote_quoted (kind : Kind) {q : Char} {raw : Text} (hq : isQuote q)
    (h : Inside q raw) : literalOrQuote kind ⟨b, quoted q raw ++ t⟩ =
      (some (specifier kind (Text.bytes b) q raw), ⟨(quoted q raw).reverse ++ b, t⟩) := by
  rw [literalOrQuote, literal?_quoted kind hq h]

/-- What the first character of a text is that is not white space. -/
def Next (t : Text) (x : Char) : Prop :=
  ∃ g u, t = g ++ x :: u ∧ (∀ y ∈ g, isSpace y) ∧ isSolid x

theorem Next.head? (h : Next t x) : (skipTrivia ⟨b, t⟩).ahead.head? = some x := by
  obtain ⟨g, u, rfl, hg, hx⟩ := h
  rw [skipTrivia_gap hg, skipTrivia_solid hx]
  rfl

theorem Next.atQuote_eq (h : Next t x) : atQuote (skipTrivia ⟨b, t⟩) = isQuote x := by
  rw [atQuote, h.head?]
  rfl

theorem next_gap {y : Char} (hg : ∀ z ∈ g, isSpace z) (h : Next t y) : Next (g ++ t) y := by
  obtain ⟨f, u, rfl, hf, hy⟩ := h
  refine ⟨g ++ f, u, (List.append_assoc _ _ _).symm, ?_, hy⟩
  intro z hz
  rcases List.mem_append.mp hz with hz | hz
  · exact hg z hz
  · exact hf z hz

theorem next_cons (hx : isSolid x) (t : Text) : Next (x :: t) x :=
  ⟨[], t, rfl, fun _ h => absurd h List.not_mem_nil, hx⟩

theorem next_quoted {q : Char} (hq : isQuote q) (raw t : Text) : Next (quoted q raw ++ t) q :=
  next_cons (isSolid_of_isQuote hq) _

theorem noWord_gap (hg : ∀ y ∈ g, isSpace y) (ht : NoWord t) : NoWord (g ++ t) := by
  refine NoWord.append ?_ ht
  intro y hy
  exact not_isWordChar_of_isSpace (hg y (List.mem_of_mem_head? hy))

theorem noWord_quoted {q : Char} (hq : isQuote q) (raw t : Text) : NoWord (quoted q raw ++ t) := by
  intro y hy
  obtain rfl : q = y := by simpa [quoted] using hy
  exact not_isWordChar_of_isQuote hq

/-- The literal after `from` is the one of the clause. -/
theorem clause_of_from {kind : Kind} {q : Char} {raw b' r : Text}
    (hr : NoWord r) (hskip : skipTrivia ⟨"from".toList.reverse ++ b, r⟩ = ⟨b', quoted q raw ++ t⟩)
    (hq : isQuote q) (h : Inside q raw) :
    clause kind ⟨b, "from".toList ++ r⟩ =
      (some (specifier kind (Text.bytes b') q raw), ⟨(quoted q raw).reverse ++ b', t⟩) := by
  have hend : wordEnd ("rom".toList ++ r) = 3 :=
    wordEnd_append (List.all_eq_true.mp (by decide)) hr
  have hquote : atQuote ⟨b', quoted q raw ++ t⟩ = true := by
    rw [quoted_append]
    exact hq
  have hs := @skipTrivia_solid b ("rom".toList ++ r) 'f' (by decide)
  have hadv : (⟨b, 'f' :: ("rom".toList ++ r)⟩ : Cursor).advance (3 + 1) =
      ⟨"from".toList.reverse ++ b, r⟩ := rfl
  have hfrom : "from".toList ++ r = 'f' :: ("rom".toList ++ r) := rfl
  rw [hfrom, clause_cons (by rw [hs]), if_neg (by decide), if_neg (by decide), if_pos (by decide),
    hs, hend, hadv, hskip, hquote, if_pos (by rfl), literalOrQuote_quoted kind hq h]

theorem readOn_from {kind : Kind} {q : Char} {raw : Text} (hg : ∀ y ∈ g, isSpace y) (hq : isQuote q)
    (h : Inside q raw) :
    readOn (.clause kind) ⟨b, "from".toList ++ (g ++ (quoted q raw ++ t))⟩ =
      specifier kind (Text.bytes (g.reverse ++ ("from".toList.reverse ++ b))) q raw ::
        scanFrom ⟨(quoted q raw).reverse ++ (g.reverse ++ ("from".toList.reverse ++ b)), t⟩ := by
  have hskip : skipTrivia ⟨"from".toList.reverse ++ b, g ++ (quoted q raw ++ t)⟩ =
      ⟨g.reverse ++ ("from".toList.reverse ++ b), quoted q raw ++ t⟩ := by
    rw [skipTrivia_gap hg, quoted_append, skipTrivia_solid (isSolid_of_isQuote hq)]
  rw [readOn_clause, clause_of_from (noWord_gap hg (noWord_quoted hq raw t)) hskip hq h, resume_some]

/-! ### Keywords -/

/-- The word `import` before something else than a literal, an argument or a member. -/
theorem scanFrom_import (ht : NoWord t) (hb : lastSolid? b ≠ some '.') (h : Next t x)
    (hx : ¬ isQuote x ∧ x ≠ '(' ∧ x ≠ '.') :
    scanFrom ⟨b, "import".toList ++ t⟩ =
      readOn (.clause .static) ⟨"import".toList.reverse ++ b, t⟩ := by
  rw [scanFrom_word ⟨by decide, by decide⟩ ht hb, afterWord, if_pos rfl, afterImport]
  simp only [h.atQuote_eq, h.head?, hx.1, Option.some.injEq, hx.2.1, hx.2.2, if_false,
    clause_skipTrivia]
  rfl

/-- The word `import` before a literal. -/
theorem scanFrom_import_quoted {q : Char} {raw : Text} (hb : lastSolid? b ≠ some '.')
    (hg : ∀ y ∈ g, isSpace y) (hq : isQuote q) (h : Inside q raw) :
    scanFrom ⟨b, "import".toList ++ (g ++ (quoted q raw ++ t))⟩ =
      specifier .static (Text.bytes (g.reverse ++ ("import".toList.reverse ++ b))) q raw ::
        scanFrom ⟨(quoted q raw).reverse ++ (g.reverse ++ ("import".toList.reverse ++ b)), t⟩ := by
  have ht : NoWord (g ++ (quoted q raw ++ t)) := noWord_gap hg (noWord_quoted hq raw t)
  have hnext := next_gap hg (next_quoted hq raw t)
  rw [scanFrom_word ⟨by decide, by decide⟩ ht hb, afterWord, if_pos rfl, afterImport]
  simp only [hnext.atQuote_eq, hq, if_true]
  rw [skipTrivia_gap hg, quoted_append, skipTrivia_solid (isSolid_of_isQuote hq), ← quoted_append,
    literalOrQuote_quoted .static hq h, resume_some]

/-- The word `export` before a star or a brace. -/
theorem scanFrom_export (ht : NoWord t) (hb : lastSolid? b ≠ some '.') (h : Next t x)
    (hx : x = '*' ∨ x = '\x7b') :
    scanFrom ⟨b, "export".toList ++ t⟩ =
      readOn (.clause .reexport) ⟨"export".toList.reverse ++ b, t⟩ := by
  rw [scanFrom_word ⟨by decide, by decide⟩ ht hb, afterWord, if_neg (by decide),
    if_pos rfl, afterExport]
  simp only [h.head?, Option.some.injEq, hx, if_true, clause_skipTrivia]
  rfl

/-- The word `export` before anything else. -/
theorem scanFrom_export_other (ht : NoWord t) (hb : lastSolid? b ≠ some '.') (h : Next t x)
    (hx : ¬ (x = '*' ∨ x = '\x7b')) :
    scanFrom ⟨b, "export".toList ++ t⟩ = scanFrom ⟨"export".toList.reverse ++ b, t⟩ := by
  rw [scanFrom_word ⟨by decide, by decide⟩ ht hb, afterWord, if_neg (by decide),
    if_pos rfl, afterExport]
  simp only [h.head?, Option.some.injEq, hx, if_false]
  exact scanFrom_skipTrivia _

end Unbundled.Import
