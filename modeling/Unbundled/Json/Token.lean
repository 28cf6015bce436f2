import Unbundled.Text.Literal

/-! # Tokens of a JSON text

JSON is read strictly: blanks are spaces, tabs and line ends only, a string holds no raw control
character, and a number has no leading zero and no bare point. A token keeps its text as written:
whether a string stands for a text (`Literal.decode?`) matters only where its value is asked for.

* `Token.lex?`: the tokens of a text.
-/

namespace Unbundled.Json

/-- A token. -/
inductive Token
  | braceOpen
  | braceClose
  | bracketOpen
  | bracketClose
  | colon
  | comma
  /-- A string, with the characters between its quotes. -/
  | string (raw : Text)
  /-- A number, as written. -/
  | number (digits : Text)
  | true
  | false
  | null
  deriving DecidableEq, Repr

namespace Token

/-- White space between tokens. -/
def isGap (c : Char) : Bool := c == ' ' || c == '\t' || c == '\n' || c == '\r'

/-- The token that a single mark makes. -/
def ofMark? (c : Char) : Option Token :=
  if c = '\x7b' then some braceOpen
  else if c = '\x7d' then some braceClose
  else if c = '[' then some bracketOpen
  else if c = ']' then some bracketClose
  else if c = ':' then some colon
  else if c = ',' then some comma
  else none

/-- The token that a run of letters makes. -/
def ofLetters? (t : Text) : Option Token :=
  if t = "true".toList then some true
  else if t = "false".toList then some false
  else if t = "null".toList then some null
  else none

/-- The number of characters before the quote that closes a string. -/
def stringSize? : Text → Option Nat
  | '\\' :: _ :: t => (stringSize? t).map (· + 2)
  | c :: t =>
    if c = '"' then some 0 else if c.toNat < 0x20 then none else (stringSize? t).map (· + 1)
  | [] => none

/-- A character that a number may hold. -/
def isNumberChar (c : Char) : Bool :=
  c.isDigit || c == '-' || c == '+' || c == '.' || c == 'e' || c == 'E'

/-- Whether a text is empty or an exponent: a letter, a sign or none, and digits. -/
def isExponent : Text → Bool
  | [] => Bool.true
  | c :: t =>
    let digits := if t.head? = some '+' ∨ t.head? = some '-' then t.tail else t
    (c == 'e' || c == 'E') && !digits.isEmpty && digits.all Char.isDigit

/-- Whether a text is a fraction or none, and an exponent or none. -/
def isFraction : Text → Bool
  | '.' :: t => !(t.takeWhile Char.isDigit).isEmpty && isExponent (t.dropWhile Char.isDigit)
  | t => isExponent t

/-- Whether a text is a number: a minus sign or none, digits that start with a zero only if there is
no further one, a fraction or none, and an exponent or none. -/
def isNumber (t : Text) : Bool :=
  let t := if t.head? = some '-' then t.tail else t
  let whole := t.takeWhile Char.isDigit
  !whole.isEmpty && (whole.length == 1 || whole.head? != some '0') &&
    isFraction (t.dropWhile Char.isDigit)

/-- The tokens of a text. -/
def lex? : Text → Option (List Token)
  | [] => some []
  | c :: t =>
    if isGap c then lex? t
    else
      match ofMark? c with
      | some mark => (lex? t).map (mark :: ·)
      | none =>
        if c = '"' then
          (stringSize? t).bind fun n =>
            if Literal.wellEscaped (t.take n) then
              (lex? (t.drop (n + 1))).map (string (t.take n) :: ·)
            else none
        else if isNumberChar c then
          let n := (t.takeWhile isNumberChar).length
          if isNumber (c :: t.take n) then
            (lex? (t.drop n)).map (number (c :: t.take n) :: ·)
          else none
        else
          let n := (t.takeWhile Char.isAlpha).length
          (ofLetters? (c :: t.take n)).bind fun word => (lex? (t.drop n)).map (word :: ·)
termination_by t => t.length
decreasing_by
  · exact Nat.lt_succ_self _
  · exact Nat.lt_succ_self _
  · exact Text.length_drop_lt _ _ _
  · exact Text.length_drop_lt _ _ _
  · exact Text.length_drop_lt _ _ _

end Token

end Unbundled.Json
