import Unbundled.Source.Lexeme

/-! # The default export of a script

Finds the words `export default` of a component script, outside comments and strings. Strings of all
three kinds of quotes may run over several lines here.

* `defaultExport?`: the places before and after the two words.
-/

namespace Unbundled.Component

open Source

/-- The length of a string after its opening quote `q`, with the closing one. -/
def closingQuote? (q : Char) : Text → Option Nat
  | '\\' :: _ :: t => (closingQuote? q t).map (· + 2)
  | c :: t => if c = q then some 1 else (closingQuote? q t).map (· + 1)
  | [] => none

/-- The number of characters that belong to the comment or the string that starts with `c`, after
`c` itself. The newline after a line comment is not part of it. -/
def passed (c : Char) (t : Text) : Nat :=
  if c = '/' then
    match t with
    | '/' :: _ => (t.takeWhile (· ≠ '\n')).length
    | '*' :: u => 1 + (blockEnd? u).getD u.length
    | _ => 0
  else if isQuote c || c = backtick then (closingQuote? c t).getD t.length
  else 0

/-- The place after a word, if the whole word stands here. -/
def afterWord? (word : Text) (c : Cursor) : Option Cursor :=
  if c.behind.head?.any isWordChar then none
  else
    match Text.after? word c.ahead with
    | some t => if t.head?.any isWordChar then none else some (c.advance word.length)
    | none => none

/-- The place after the words `export default`, if they stand here with white space between them. -/
def afterDefault? (c : Cursor) : Option Cursor := do
  let c ← afterWord? "export".toList c
  let n := (c.ahead.takeWhile isSpace).length
  if n = 0 then none else afterWord? "default".toList (c.advance n)

/-- The places before and after the first `export default` from a place on. -/
def defaultExport? (c : Cursor) : Option (Cursor × Cursor) :=
  match _h : c.ahead with
  | [] => none
  | x :: t =>
    match afterDefault? c with
    | some d => some (c, d)
    | none => defaultExport? (c.advance (passed x t + 1))
termination_by c.ahead.length
decreasing_by exact Cursor.length_advance_lt (by assumption) _

end Unbundled.Component
