import Unbundled.Import.Scan
import Unbundled.Proofs.Source.Alongside

/-! # Tidy sources

A source is tidy if every string and every regular expression that the scan starts to read is closed.
In any other source an opening mark stands for itself because nothing closes it, and may come to mean
something else when a text further on changes.

The places where the scan may open a string or a regular expression are listed next to its readers:
`turnPlaces` for one turn, `placesFrom` for the whole scan. What is opened there, if anything, is told
by `isClosed`. -/

namespace Unbundled.Import

open Source

variable {c : Cursor} {x : Char} {t : Text}

/-- The place of a literal, if one is opened there. -/
def literalPlaces (c : Cursor) : List Cursor := if atQuote c then [c] else []

/-- The place where the literal of a clause is opened. -/
def clausePlaces (c : Cursor) : List Cursor :=
  let c := skipTrivia c
  match h : c.ahead with
  | [] => []
  | x :: t =>
    if x = '\x7b' then
      match t.findIdx? (· = '\x7d') with
      | some n => clausePlaces (c.advance (n + 2))
      | none => []
    else if x = '*' || x = ',' then clausePlaces (c.advance 1)
    else if isWordStart x then
      let next := c.advance (wordEnd t + 1)
      if x :: t.take (wordEnd t) = "from".toList && atQuote (skipTrivia next) then
        [skipTrivia next]
      else clausePlaces next
    else []
termination_by c.ahead.length
decreasing_by
  all_goals
    refine Nat.lt_of_lt_of_le (Cursor.length_advance_lt h _) ?_
    exact (onward_skipTrivia _).length_le

theorem clausePlaces_cons (h : (skipTrivia c).ahead = x :: t) :
    clausePlaces c =
      if x = '\x7b' then
        match t.findIdx? (· = '\x7d') with
        | some n => clausePlaces ((skipTrivia c).advance (n + 2))
        | none => []
      else if x = '*' || x = ',' then clausePlaces ((skipTrivia c).advance 1)
      else if isWordStart x then
        if x :: t.take (wordEnd t) = "from".toList &&
            atQuote (skipTrivia ((skipTrivia c).advance (wordEnd t + 1))) then
          [skipTrivia ((skipTrivia c).advance (wordEnd t + 1))]
        else clausePlaces ((skipTrivia c).advance (wordEnd t + 1))
      else [] := by
  rw [clausePlaces]
  split
  · rename_i hx
    rw [h] at hx
    exact absurd hx (by simp)
  · rename_i hx
    rw [h] at hx
    obtain ⟨rfl, rfl⟩ := List.cons.inj hx
    rfl

/-- The place where the literal of `import` is opened, from the first character behind the word on. -/
def importPlaces (c : Cursor) : List Cursor :=
  if atQuote c then [c]
  else if c.ahead.head? = some '(' then literalPlaces (skipTrivia (c.advance 1))
  else if c.ahead.head? = some '.' then []
  else clausePlaces c

/-- The place where the literal of `export` is opened, from the first character behind the word on. -/
def exportPlaces (c : Cursor) : List Cursor :=
  if c.ahead.head? = some '*' ∨ c.ahead.head? = some '\x7b' then clausePlaces c else []

/-- The place where a literal is opened that belongs to a word. -/
def wordPlaces (word : Text) (c : Cursor) : List Cursor :=
  if word = "import".toList then importPlaces (skipTrivia c)
  else if word = "export".toList then exportPlaces (skipTrivia c)
  else []

/-- The places where one turn of the scan may open a string or a regular expression. -/
def turnPlaces (c : Cursor) (x : Char) (t : Text) : List Cursor :=
  let l := Lexeme.read c.behind x t
  lexemePlaces c.behind x t ++
    if l.kind = .word ∧ lastSolid? c.behind ≠ some '.' then
      wordPlaces (x :: t.take l.size) (c.advance (l.size + 1))
    else []

/-- The places where the scan may open a string or a regular expression from a place on. -/
def placesFrom (c : Cursor) : List Cursor :=
  match _h : c.ahead with
  | [] => []
  | x :: t => turnPlaces c x t ++ placesFrom (step c x t).2
termination_by c.ahead.length
decreasing_by exact length_step_lt (by assumption)

theorem placesFrom_cons (h : c.ahead = x :: t) :
    placesFrom c = turnPlaces c x t ++ placesFrom (step c x t).2 := by
  rw [placesFrom]
  split
  · rename_i hc
    rw [h] at hc
    exact absurd hc (by simp)
  · rename_i hc
    rw [h] at hc
    obtain ⟨rfl, rfl⟩ := List.cons.inj hc
    rfl

/-- **Every string and every regular expression that the scan opens is closed**: at the places of the
script, in the expressions of template literals, and where a declaration or `import(…)` has its
literal. -/
def Tidy (source : Text) : Prop := ∀ d ∈ placesFrom (Cursor.start source), isClosed d

instance (source : Text) : Decidable (Tidy source) := inferInstanceAs (Decidable (∀ d ∈ _, _))

end Unbundled.Import
