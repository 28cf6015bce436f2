import Unbundled.Source.Cursor

/-! # Lexemes of a module

The parts of a script that an import can hide in are comments, strings, template literals and
regular expressions. This module reads one such part at a time.

Readers take the characters after an opening mark and answer with the number of characters up to and
including the closing mark, or nothing if the part is not closed: `lineEnd?`, `blockEnd?`,
`stringEnd?` (a string ends on its line), `regexEnd?` and `templateEnd?`. A template literal may hold
expressions, which may hold braces and further templates; `Nesting` records what is open.

Whether a slash divides or opens a regular expression is decided by the character before it
(`regexAllowed`).

`Lexeme.read` puts the readers together, and `lexemes` splits a whole text, from left to right;
`flatten_lexemes` says that nothing is lost.
-/

namespace Unbundled.Source

/-! ### Characters -/

/-- White space between the tokens of a script. -/
def isSpace (c : Char) : Bool :=
  c == ' ' || c == '\t' || c == '\n' || c == '\x0C' || c == '\r'

/-- A character that a word may start with: words are ASCII. -/
def isWordStart (c : Char) : Bool := c.isAlpha || c == '_' || c == '$'

/-- A character that a word may hold. -/
def isWordChar (c : Char) : Bool := c.isAlphanum || c == '_' || c == '$'

/-- A mark that opens and closes a string. -/
def isQuote (c : Char) : Bool := c == '\x27' || c == '"'

/-- The mark that opens and closes a template literal. -/
def backtick : Char := '\x60'

/-- The number of word characters at the front. -/
def wordEnd (t : Text) : Nat := (t.takeWhile isWordChar).length

/-! ### Comments and strings -/

/-- The length of a line comment after its slashes, with the newline. -/
def lineEnd? : Text → Option Nat
  | [] => none
  | c :: t => if c = '\n' then some 1 else (lineEnd? t).map (· + 1)

/-- The length of a block comment after its opening, with the closing star and slash. -/
def blockEnd? : Text → Option Nat
  | '*' :: '/' :: _ => some 2
  | _ :: t => (blockEnd? t).map (· + 1)
  | [] => none

/-- The length of a comment after its first slash. A comment that is not closed runs to the end. -/
def commentEnd? : Text → Option Nat
  | '/' :: t => some (1 + (lineEnd? t).getD t.length)
  | '*' :: t => some (1 + (blockEnd? t).getD t.length)
  | _ => none

/-- The length of a string after its opening quote `q`, with the closing one. A backslash takes the
character after it along, and a string does not run over the end of its line. -/
def stringEnd? (q : Char) : Text → Option Nat
  | '\\' :: _ :: t => (stringEnd? q t).map (· + 2)
  | c :: t =>
    if c = '\n' then none else if c = q then some 1 else (stringEnd? q t).map (· + 1)
  | [] => none

/-- The number of blanks and comments at the front, in characters. -/
def triviaEnd : Text → Nat
  | [] => 0
  | c :: t =>
    if isSpace c then 1 + triviaEnd t
    else if c = '/' then
      match commentEnd? t with
      | some n => 1 + n + triviaEnd (t.drop n)
      | none => 0
    else 0
termination_by t => t.length
decreasing_by
  · exact Nat.lt_succ_self _
  · exact Text.length_drop_lt _ _ _

/-! ### Regular expressions -/

/-- The last character before a place that is not white space. -/
def lastSolid? (behind : Text) : Option Char := (behind.dropWhile isSpace).head?

/-- The words after which an expression starts. -/
def operatorWords : List Text :=
  ["return", "typeof", "instanceof", "in", "of", "new", "delete", "void", "throw", "case", "do",
    "else", "yield", "await"].map String.toList

/-- The marks after which an expression starts. -/
def operatorMarks : Text := "(,=:[!&|?\x7b\x7d;+-*%<>~^".toList

/-- Whether a slash opens a regular expression, given the text behind it: at the start of the text,
after a mark or a word that an expression follows, and not after a name, a number, a closing
parenthesis or a closing bracket. -/
def regexAllowed (behind : Text) : Bool :=
  match behind.dropWhile isSpace with
  | [] => true
  | c :: t =>
    operatorMarks.contains c ||
      (isWordChar c && operatorWords.contains ((c :: t).takeWhile isWordChar).reverse)

/-- The length of a regular expression after its opening slash, with the closing one. A slash inside
brackets or after a backslash does not close it, and it does not run over the end of its line. -/
def regexEnd? (inBrackets : Bool) : Text → Option Nat
  | '\\' :: _ :: t => (regexEnd? inBrackets t).map (· + 2)
  | c :: t =>
    if c = '\n' then none
    else if c = '[' then (regexEnd? true t).map (· + 1)
    else if c = ']' then (regexEnd? false t).map (· + 1)
    else if c = '/' && !inBrackets then some 1
    else (regexEnd? inBrackets t).map (· + 1)
  | [] => none

/-! ### Lexemes -/

/-- The kinds of lexemes. -/
inductive Kind
  | comment
  | string
  | regex
  | template
  | word
  | other
  deriving DecidableEq, Repr

/-- A lexeme: its kind, and the number of its characters after the first one. -/
structure Lexeme where
  kind : Kind
  size : Nat
  deriving DecidableEq, Repr

namespace Lexeme

/-- A single character of no particular kind. -/
def single : Lexeme := ⟨.other, 0⟩

/-- The lexeme that starts with `c`, where a backtick counts as any other character. An opening mark
that is not closed as it should stands for itself. -/
def readFlat (behind : Text) (c : Char) (t : Text) : Lexeme :=
  if c = '/' then
    match commentEnd? t with
    | some n => ⟨.comment, n⟩
    | none =>
      if regexAllowed behind then
        match regexEnd? false t with
        | some n => ⟨.regex, n + wordEnd (t.drop n)⟩
        | none => single
      else single
  else if isQuote c then
    match stringEnd? c t with
    | some n => ⟨.string, n⟩
    | none => single
  else if isWordStart c then ⟨.word, wordEnd t⟩
  else single

end Lexeme

/-! ### Template literals -/

/-- What is open at a place inside a template literal. -/
inductive Nesting
  /-- The text of a literal, inside expressions with the given numbers of open braces. -/
  | text (outer : List Nat)
  /-- An expression with `depth` open braces, inside further ones. -/
  | expression (depth : Nat) (outer : List Nat)
  deriving DecidableEq, Repr

/-- What is open after the part that starts with `c`, nothing if the whole literal is closed, and
the number of characters of the part after the first one. -/
def Nesting.step (behind : Text) (c : Char) (t : Text) : Nesting → Option Nesting × Nat
  | text outer =>
    if c = '\\' then (some (text outer), 1)
    else if c = backtick then
      match outer with
      | [] => (none, 0)
      | depth :: outer => (some (expression depth outer), 0)
    else if c = '$' && t.head? == some '\x7b' then (some (expression 0 outer), 1)
    else (some (text outer), 0)
  | expression depth outer =>
    if c = '\x7b' then (some (expression (depth + 1) outer), 0)
    else if c = '\x7d' then
      match depth with
      | 0 => (some (text outer), 0)
      | depth + 1 => (some (expression depth outer), 0)
    else if c = backtick then (some (text (depth :: outer)), 0)
    else (some (expression depth outer), (Lexeme.readFlat behind c t).size)

/-- The length of what is left of a template literal, with the closing backtick. -/
def templateEnd? (place : Nesting) (behind : Text) : Text → Option Nat
  | [] => none
  | c :: t =>
    match place.step behind c t with
    | (none, n) => some (n + 1)
    | (some still, n) =>
      (templateEnd? still ((t.take n).reverse ++ c :: behind) (t.drop n)).map (· + (n + 1))
termination_by t => t.length
decreasing_by exact Text.length_drop_lt _ _ _

/-- The lexeme that starts with `c`. A template literal that is not closed runs to the end. -/
def Lexeme.read (behind : Text) (c : Char) (t : Text) : Lexeme :=
  if c = backtick then
    ⟨.template, (templateEnd? (.text []) (c :: behind) t).getD t.length⟩
  else readFlat behind c t

/-- The lexemes of a text, given what lies behind it. -/
def lexemes (behind : Text) : Text → List (Kind × Text)
  | [] => []
  | c :: t =>
    let l := Lexeme.read behind c t
    (l.kind, c :: t.take l.size) ::
      lexemes ((t.take l.size).reverse ++ c :: behind) (t.drop l.size)
termination_by t => t.length
decreasing_by exact Text.length_drop_lt _ _ _

theorem flatten_lexemes (behind t : Text) : ((lexemes behind t).map Prod.snd).flatten = t := by
  fun_induction lexemes behind t with
  | case1 => rfl
  | case2 behind c t l ih => simp [ih]

end Unbundled.Source
