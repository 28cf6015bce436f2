import Unbundled.Source.Lexeme

/-! # Imports of a module

Finds the specifier of every import in a script without parsing it: `import … from '…'`,
`import '…'`, `export … from '…'` and `import('…')` with a literal argument. The text is passed
lexeme by lexeme, so what looks like an import inside a comment, a string, a template literal or a
regular expression is not one.

* `Import`: a specifier with the place of its literal.
* `Import.scan`: the imports of a text, in order.
* `onward_keyword`: what is read after a keyword leads on; with it the scan comes to an end.
-/

namespace Unbundled

open Source

/-- The forms of an import. -/
inductive Import.Kind
  /-- `import … from '…'` or `import '…'` -/
  | static
  /-- `import('…')` -/
  | dynamic
  /-- `export … from '…'` -/
  | reexport
  deriving DecidableEq, Repr

/-- An import specifier found in a source text. -/
structure Import where
  /-- The byte offset of the opening quote. -/
  start : Nat
  /-- The byte offset after the closing quote. -/
  stop : Nat
  /-- The text between the quotes, as written. -/
  raw : Text
  kind : Import.Kind
  deriving DecidableEq, Repr

namespace Import

/-! ### Places in a script -/

/-- The next place that is not white space and not inside a comment. -/
def skipTrivia (c : Cursor) : Cursor := c.advance (triviaEnd c.ahead)

theorem onward_skipTrivia (c : Cursor) : c.Onward (skipTrivia c) := Cursor.onward_advance _ c

/-- Whether a string may start at a place. -/
def atQuote (c : Cursor) : Bool := c.ahead.head?.any isQuote

/-- The specifier whose literal starts at a place, and the place after the literal. There is none if
the literal is not closed on its line. -/
def literal? (kind : Kind) (c : Cursor) : Option (Import × Cursor) :=
  match c.ahead with
  | [] => none
  | q :: t =>
    (stringEnd? q t).map fun n =>
      (⟨c.offset, c.offset + Text.bytes (q :: t.take n), (t.take n).dropLast, kind⟩,
        c.advance (n + 1))

theorem onward_literal? {kind : Kind} {c d : Cursor} {i : Import}
    (h : literal? kind c = some (i, d)) : c.Onward d := by
  unfold literal? at h
  split at h
  · simp at h
  · obtain ⟨n, -, he⟩ := Option.map_eq_some_iff.mp h
    simp only [Prod.mk.injEq] at he
    exact ⟨n + 1, he.2.symm⟩

/-- What a literal at a place gives: its specifier, or only the step over its opening quote. -/
def literalOrQuote (kind : Kind) (c : Cursor) : Option Import × Cursor :=
  match literal? kind c with
  | some (i, d) => (some i, d)
  | none => (none, c.advance 1)

theorem onward_literalOrQuote (kind : Kind) (c : Cursor) :
    c.Onward (literalOrQuote kind c).2 := by
  unfold literalOrQuote
  split
  · rename_i h
    exact onward_literal? h
  · exact Cursor.onward_advance 1 c

/-! ### Declarations -/

/-- Walks over the names, stars, commas and brace lists of a declaration, up to the word `from` with
a literal or up to something that no declaration holds. A brace list ends at the first closing
brace; without one, the rest of the text belongs to it. -/
def clause (kind : Kind) (c : Cursor) : Option Import × Cursor :=
  let c := skipTrivia c
  match h : c.ahead with
  | [] => (none, c)
  | x :: t =>
    if x = '\x7b' then
      match t.findIdx? (· = '\x7d') with
      | some n => clause kind (c.advance (n + 2))
      | none => (none, c.finish)
    else if x = '*' || x = ',' then clause kind (c.advance 1)
    else if isWordStart x then
      let next := c.advance (wordEnd t + 1)
      if x :: t.take (wordEnd t) = "from".toList && atQuote (skipTrivia next) then
        literalOrQuote kind (skipTrivia next)
      else clause kind next
    else (none, c)
termination_by c.ahead.length
decreasing_by
  all_goals
    refine Nat.lt_of_lt_of_le (Cursor.length_advance_lt h _) ?_
    exact (onward_skipTrivia _).length_le

theorem onward_clause (kind : Kind) (c : Cursor) : c.Onward (clause kind c).2 := by
  fun_induction clause kind c with
  | case1 c d h => exact onward_skipTrivia c
  | case2 c d t n hn h ih =>
    exact ((onward_skipTrivia c).trans (Cursor.onward_advance _ _)).trans ih
  | case3 c d t hn h => exact (onward_skipTrivia c).trans (Cursor.onward_finish _)
  | case4 c d x t h hx hs ih =>
    exact ((onward_skipTrivia c).trans (Cursor.onward_advance _ _)).trans ih
  | case5 c d x t h hx hs hw next hq =>
    exact (((onward_skipTrivia c).trans (Cursor.onward_advance _ _)).trans
      (onward_skipTrivia _)).trans (onward_literalOrQuote _ _)
  | case6 c d x t h hx hs hw next hq ih =>
    exact ((onward_skipTrivia c).trans (Cursor.onward_advance _ _)).trans ih
  | case7 c d x t h hx hs hw => exact onward_skipTrivia c

/-- The argument of `import(…)`, from the place after the parenthesis. It names a module if it is a
single literal, followed by the closing parenthesis or by a comma. -/
def dynamicArgument (c : Cursor) : Option Import × Cursor :=
  let c := skipTrivia c
  if atQuote c then
    match literal? .dynamic c with
    | some (i, d) =>
      let close := (skipTrivia d).ahead.head?
      (if close = some ')' ∨ close = some ',' then some i else none, d)
    | none => (none, c)
  else (none, c)

theorem onward_dynamicArgument (c : Cursor) : c.Onward (dynamicArgument c).2 := by
  unfold dynamicArgument
  dsimp only
  split
  · split
    · rename_i h
      exact (onward_skipTrivia c).trans (onward_literal? h)
    · exact onward_skipTrivia c
  · exact onward_skipTrivia c

/-- What follows the word `import`: a literal, an argument, a member (`import.meta`) or a clause. -/
def afterImport (c : Cursor) : Option Import × Cursor :=
  let c := skipTrivia c
  if atQuote c then literalOrQuote .static c
  else if c.ahead.head? = some '(' then dynamicArgument (c.advance 1)
  else if c.ahead.head? = some '.' then (none, c.advance 1)
  else clause .static c

/-- What follows the word `export`: only a star or a brace list can lead to a literal. -/
def afterExport (c : Cursor) : Option Import × Cursor :=
  let c := skipTrivia c
  if c.ahead.head? = some '*' ∨ c.ahead.head? = some '\x7b' then clause .reexport c else (none, c)

/-- What follows a word of the script. -/
def afterWord (word : Text) (c : Cursor) : Option Import × Cursor :=
  if word = "import".toList then afterImport c
  else if word = "export".toList then afterExport c
  else (none, c)

theorem onward_afterImport (c : Cursor) : c.Onward (afterImport c).2 := by
  unfold afterImport
  refine (onward_skipTrivia c).trans ?_
  dsimp only
  split
  · exact onward_literalOrQuote _ _
  split
  · exact (Cursor.onward_advance _ _).trans (onward_dynamicArgument _)
  split
  · exact Cursor.onward_advance _ _
  · exact onward_clause _ _

theorem onward_afterExport (c : Cursor) : c.Onward (afterExport c).2 := by
  unfold afterExport
  refine (onward_skipTrivia c).trans ?_
  dsimp only
  split
  · exact onward_clause _ _
  · exact Cursor.Onward.refl _

theorem onward_afterWord (word : Text) (c : Cursor) : c.Onward (afterWord word c).2 := by
  unfold afterWord
  split
  · exact onward_afterImport c
  split
  · exact onward_afterExport c
  · exact Cursor.Onward.refl c

/-! ### The scan -/

/-- One step of the scan from a place where the characters `x :: t` lie ahead: the import found, if
any, and the next place. A word after a dot is the name of a member. -/
def step (c : Cursor) (x : Char) (t : Text) : Option Import × Cursor :=
  let l := Lexeme.read c.behind x t
  let next := c.advance (l.size + 1)
  if l.kind = .word ∧ lastSolid? c.behind ≠ some '.' then afterWord (x :: t.take l.size) next
  else (none, next)

theorem length_step_lt {c : Cursor} {x : Char} {t : Text} (h : c.ahead = x :: t) :
    (step c x t).2.ahead.length < c.ahead.length := by
  unfold step
  dsimp only
  split
  · exact Nat.lt_of_le_of_lt (onward_afterWord _ _).length_le (Cursor.length_advance_lt h _)
  · exact Cursor.length_advance_lt h _

/-- The imports from a place on. -/
def scanFrom (c : Cursor) : List Import :=
  match _h : c.ahead with
  | [] => []
  | x :: t => (step c x t).1.toList ++ scanFrom (step c x t).2
termination_by c.ahead.length
decreasing_by exact length_step_lt (by assumption)

/-- **The imports of a source text**, in ascending order. -/
def scan (source : Text) : List Import := scanFrom (Cursor.start source)

end Import

end Unbundled
