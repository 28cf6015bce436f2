import Mathlib.Tactic.IntervalCases
import Unbundled.Proofs.Source.Behind
import Unbundled.Proofs.Source.Replaced

/-! # Arithmetic

In an arithmetic expression every slash is a division. The lexemes tell a division from the start of a
regular expression by the character behind: behind a name, a number and a closing mark a slash divides.
Behind the operators `++` and `--` it divides as well, but there it is taken for the start of a regular
expression, which ends with the next division, brackets aside, or goes on behind the expression.

`Mode` follows this token by token; what a slash means behind a token is `regexAllowed_token`, and
where a regular expression ends that starts in an expression is `regexEnd?_spaced`. -/

namespace Unbundled.Source

/-! ### Tokens -/

/-- The words that are no names, and `of`. -/
def reservedWords : List Text :=
  ["await", "break", "case", "catch", "class", "const", "continue", "debugger", "default", "delete",
    "do", "else", "enum", "export", "extends", "false", "finally", "for", "function", "if", "import",
    "in", "instanceof", "new", "null", "return", "super", "switch", "this", "throw", "true", "try",
    "typeof", "var", "void", "while", "with", "yield", "of"].map String.toList

/-- A name in an expression. -/
structure Variable where
  text : Text
  isWord : IsWord text
  free : text ∉ reservedWords

/-- A decimal integer. -/
structure Number where
  text : Text
  digits : text.all Char.isDigit
  ne_nil : text ≠ []

inductive Operator
  | plus
  | minus
  | times
  | divide
  | modulo
  deriving DecidableEq

inductive Token
  | name (x : Variable)
  | number (n : Number)
  | openParen
  | closeParen
  | openBracket
  | closeBracket
  | operator (o : Operator)
  | increment
  | decrement

namespace Token

def text : Token → Text
  | name x => x.text
  | number n => n.text
  | openParen => ['(']
  | closeParen => [')']
  | openBracket => ['[']
  | closeBracket => [']']
  | operator .plus => ['+']
  | operator .minus => ['-']
  | operator .times => ['*']
  | operator .divide => ['/']
  | operator .modulo => ['%']
  | increment => ['+', '+']
  | decrement => ['-', '-']

/-- Whether a slash behind the token is taken for a division. -/
def divides : Token → Bool
  | name _ | number _ | closeParen | closeBracket | operator .divide => true
  | openParen | openBracket | increment | decrement => false
  | operator .plus | operator .minus | operator .times | operator .modulo => false

end Token

/-- Tokens, each with a number of spaces behind it. -/
def spaced (ks : List (Token × Nat)) : Text :=
  ks.flatMap fun k => k.1.text ++ List.replicate k.2 ' '

theorem spaced_cons (k : Token) (n : Nat) (ks : List (Token × Nat)) (r : Text) :
    spaced ((k, n) :: ks) ++ r = k.text ++ (List.replicate n ' ' ++ (spaced ks ++ r)) := by
  simp [spaced]

/-- Spaces stand between the tokens, and behind the last one unless a semicolon comes next. -/
def Separated : List (Token × Nat) → Option Char → Prop
  | [], _ => True
  | (_, n) :: ks, next => (n = 0 → ks = [] ∧ next = some ';') ∧ Separated ks next

theorem Separated.of_append {ks ls : List (Token × Nat)} {next : Option Char}
    (h : Separated (ks ++ ls) next) : Separated ls next := by
  induction ks with
  | nil => exact h
  | cons k ks ih => exact ih h.2

/-- What follows a token is a space or a semicolon. -/
theorem Separated.exists_cons {k : Token} {n : Nat} {ks : List (Token × Nat)} {r : Text}
    (h : Separated ((k, n) :: ks) r.head?) :
    ∃ x t, List.replicate n ' ' ++ (spaced ks ++ r) = x :: t ∧ (x = ' ' ∨ x = ';') := by
  cases n with
  | zero =>
    obtain ⟨rfl, hr⟩ := h.1 rfl
    obtain ⟨t, rfl⟩ := List.head?_eq_some_iff.mp hr
    exact ⟨';', t, rfl, Or.inr rfl⟩
  | succ n => exact ⟨' ', _, List.cons_append, Or.inl rfl⟩

/-! ### Expressions -/

inductive Expression
  | name (x : Variable)
  | number (n : Number)
  | paren (e : Expression)
  /-- `e [ i ]` -/
  | index (e i : Expression)
  | increment (e : Expression)
  | decrement (e : Expression)
  | binary (e : Expression) (o : Operator) (f : Expression)

namespace Expression

def tokens : Expression → List Token
  | name x => [.name x]
  | number n => [.number n]
  | paren e => .openParen :: (e.tokens ++ [.closeParen])
  | index e i => e.tokens ++ .openBracket :: (i.tokens ++ [.closeBracket])
  | increment e => e.tokens ++ [.increment]
  | decrement e => e.tokens ++ [.decrement]
  | binary e o f => e.tokens ++ .operator o :: f.tokens

/-- Whether an expression ends with `++` or `--`. -/
def isStep : Expression → Bool
  | increment _ | decrement _ => true
  | binary _ _ f => f.isStep
  | name _ | number _ | paren _ | index _ _ => false

/-- No division stands right behind `++` or `--`. -/
def Plain : Expression → Prop
  | name _ | number _ => True
  | paren e | increment e | decrement e => e.Plain
  | index e i => e.Plain ∧ i.Plain
  | binary e o f => (o = .divide → e.isStep = false) ∧ e.Plain ∧ f.Plain

end Expression

/-! ### How the tokens are taken -/

/-- What the scan is in between two tokens. -/
inductive Mode
  /-- In the script; `divides` says whether a slash divides here. -/
  | script (divides : Bool)
  /-- In a regular expression, inside brackets or not. -/
  | regex (inBrackets : Bool)
  deriving DecidableEq

def Mode.next : Mode → Token → Mode
  | script d, .operator .divide => if d then script true else regex false
  | script _, k => script k.divides
  | regex false, .operator .divide => script true
  | regex _, .openBracket => regex true
  | regex _, .closeBracket => regex false
  | regex i, _ => regex i

/-- What the scan is in behind a sequence of tokens. -/
def Mode.after (m : Mode) (ks : List Token) : Mode := ks.foldl next m

def Mode.isScript : Mode → Bool
  | script _ => true
  | regex _ => false

@[simp] theorem Mode.after_cons (m : Mode) (k : Token) (ks : List Token) :
    m.after (k :: ks) = (m.next k).after ks := rfl

@[simp] theorem Mode.after_append (m : Mode) (ks ls : List Token) :
    m.after (ks ++ ls) = (m.after ks).after ls := List.foldl_append

theorem Mode.of_next {m : Mode} {k : Token} (h : m.next k = .regex true) :
    k ≠ .closeBracket ∧ (k ≠ .openBracket → m = .regex true) := by
  rcases m with d | (_ | _)
  · cases k with
    | operator o => cases o <;> cases d <;> exact absurd h (by decide)
    | name _ | number _ | _ => exact absurd h (by simp [next])
  · cases k with
    | operator o => cases o <;> exact absurd h (by decide)
    | openBracket => simp
    | name _ | number _ | _ => exact absurd h (by simp [next])
  · refine ⟨?_, fun _ => rfl⟩
    rintro rfl
    simp [next] at h

/-- An expression closes the brackets that it opens. -/
theorem Expression.after_ne (e : Expression) {m : Mode} (h : m.after e.tokens = .regex true) :
    m = .regex true := by
  induction e generalizing m with
  | name x => exact (Mode.of_next h).2 (by simp)
  | number n => exact (Mode.of_next h).2 (by simp)
  | paren e ih =>
    rw [tokens, Mode.after_cons, Mode.after_append] at h
    exact (Mode.of_next (ih ((Mode.of_next h).2 (by simp)))).2 (by simp)
  | index e i he hi =>
    rw [tokens, Mode.after_append, Mode.after_cons, Mode.after_append] at h
    exact absurd rfl (Mode.of_next h).1
  | increment e ih =>
    rw [tokens, Mode.after_append] at h
    exact ih ((Mode.of_next h).2 (by simp))
  | decrement e ih =>
    rw [tokens, Mode.after_append] at h
    exact ih ((Mode.of_next h).2 (by simp))
  | binary e o f he hf =>
    rw [tokens, Mode.after_append, Mode.after_cons] at h
    exact he ((Mode.of_next (hf h)).2 (by simp))

/-- Without a division right behind `++` or `--`, no regular expression starts. -/
theorem Expression.after_plain (e : Expression) (h : e.Plain) (d : Bool) :
    (Mode.script d).after e.tokens = .script (!e.isStep) := by
  induction e generalizing d with
  | name x => rfl
  | number n => rfl
  | paren e ih =>
    rw [tokens, Mode.after_cons, Mode.after_append, Mode.next, ih h]
    · rfl
    · simp
  | index e i he hi =>
    rw [tokens, Mode.after_append, Mode.after_cons, Mode.after_append, he h.1, Mode.next, hi h.2]
    · rfl
    · simp
  | increment e ih =>
    rw [tokens, Mode.after_append, ih h]
    rfl
  | decrement e ih =>
    rw [tokens, Mode.after_append, ih h]
    rfl
  | binary e o f he hf =>
    obtain ⟨ho, h1, h2⟩ := h
    have hnext : ∃ d, (Mode.script (!e.isStep)).next (.operator o) = .script d := by
      cases o with
      | divide => exact ⟨true, by rw [ho rfl]; rfl⟩
      | plus | minus | times | modulo => exact ⟨false, rfl⟩
    obtain ⟨d', hd'⟩ := hnext
    rw [tokens, Mode.after_append, Mode.after_cons, he h1, hd', hf h2]
    rfl

/-- The last token decides what a slash means. -/
theorem Mode.next_script {k : Token} (hk : k ≠ .operator .divide) (d : Bool) :
    (Mode.script d).next k = .script k.divides := by
  cases k with
  | operator o =>
    cases o with
    | divide => exact absurd rfl hk
    | plus | minus | times | modulo => rfl
  | name _ | number _ | _ => rfl

/-- How far into the text behind some tokens the scan is led: as far as a regular expression goes
that is still open there, with its flags. -/
def Mode.further? : Mode → Text → Option Nat
  | script _, _ => some 0
  | regex i, r => (regexEnd? i r).map fun n => n + wordEnd (r.drop n)

/-! ### What is read of a token -/

variable {b r w : Text} {x : Char} {k : Token} {n : Nat} {ks : List (Token × Nat)}

theorem isInert_of_isWordChar (h : isWordChar x) : isInert x := by
  refine isInert_iff.mpr ⟨?_, ?_, fun hq => not_isWordChar_of_isQuote hq h, ?_, ?_, ?_⟩ <;>
    · rintro rfl
      exact absurd h (by decide)

theorem mem_of_isDigit (h : x.isDigit) : x ∈ "0123456789".toList := by
  rw [Char.isDigit, Bool.and_eq_true, decide_eq_true_eq, decide_eq_true_eq] at h
  have h1 : 48 ≤ x.toNat := h.1
  have h2 : x.toNat ≤ 57 := h.2
  rw [← Char.ofNat_toNat x]
  interval_cases x.toNat <;> decide

theorem isPlain_of_isDigit (h : x.isDigit) : isPlain x :=
  List.all_eq_true.mp (show "0123456789".toList.all isPlain by decide) x (mem_of_isDigit h)

theorem isWordChar_of_isDigit (h : x.isDigit) : isWordChar x :=
  List.all_eq_true.mp (show "0123456789".toList.all isWordChar by decide) x (mem_of_isDigit h)

/-- A token of word characters. -/
theorem Token.wordChars (hk : (∃ y, k = .name y) ∨ ∃ m, k = .number m) :
    k.text ≠ [] ∧ (∀ c ∈ k.text, isWordChar c) ∧ k.text ∉ operatorWords := by
  rcases hk with ⟨y, rfl⟩ | ⟨m, rfl⟩
  · refine ⟨List.ne_nil_of_length_pos y.isWord.length_pos, fun c hc => y.isWord.wordChar hc, fun hm => ?_⟩
    have hsub : operatorWords ⊆ reservedWords := by decide
    exact y.free (hsub hm)
  · have hdigit : ∀ c ∈ m.text, c.isDigit := List.all_eq_true.mp m.digits
    refine ⟨m.ne_nil, fun c hc => isWordChar_of_isDigit (hdigit c hc), fun hm => ?_⟩
    obtain ⟨c, t, hc⟩ := List.exists_cons_of_ne_nil m.ne_nil
    have hall : ∀ w ∈ operatorWords, ¬ w.head?.any Char.isDigit := by decide
    refine hall _ hm ?_
    rw [text, hc]
    exact hdigit c (hc ▸ List.mem_cons_self)

/-- Behind a word that no expression follows, a slash divides. -/
theorem regexAllowed_word (hne : w ≠ []) (hw : ∀ c ∈ w, isWordChar c) (hno : w ∉ operatorWords)
    (hb : NoWord b) : regexAllowed (w.reverse ++ b) = false := by
  obtain ⟨c, t, hc⟩ := List.exists_cons_of_ne_nil (List.reverse_ne_nil_iff.mpr hne)
  have hword : isWordChar c := hw c (List.mem_reverse.mp (hc ▸ List.mem_cons_self))
  have hmark : operatorMarks.contains c = false := by
    have hall : ∀ y ∈ operatorMarks, !isWordChar y := List.all_eq_true.mp (by decide)
    exact Bool.eq_false_iff.mpr fun hm => by simpa [hword] using hall c (List.contains_iff_mem.mp hm)
  have hspace : (w.reverse ++ b).dropWhile isSpace = w.reverse ++ b := by
    rw [hc, List.cons_append, List.dropWhile_cons, if_neg fun hs => not_isWordChar_of_isSpace hs hword]
  have htake : (w.reverse ++ b).takeWhile isWordChar = w.reverse := by
    rw [List.takeWhile_append_of_pos fun y hy => hw y (List.mem_reverse.mp hy)]
    cases b with
    | nil => rw [List.takeWhile_nil, List.append_nil]
    | cons d b => rw [List.takeWhile_cons, if_neg (hb d rfl), List.append_nil]
  rw [regexAllowed, hspace, hc, List.cons_append]
  dsimp only
  rw [← List.cons_append, ← hc, htake, List.reverse_reverse, hmark,
    Bool.eq_false_iff.mpr fun hm => hno (List.contains_iff_mem.mp hm), Bool.and_false, Bool.or_false]

/-- What a slash means behind a token. -/
theorem regexAllowed_token (k : Token) (hb : NoWord b) :
    regexAllowed (k.text.reverse ++ b) = !k.divides := by
  cases k with
  | name y =>
    obtain ⟨h1, h2, h3⟩ := Token.wordChars (k := .name y) (Or.inl ⟨y, rfl⟩)
    exact regexAllowed_word h1 h2 h3 hb
  | number m =>
    obtain ⟨h1, h2, h3⟩ := Token.wordChars (k := .number m) (Or.inr ⟨m, rfl⟩)
    exact regexAllowed_word h1 h2 h3 hb
  | operator o => cases o <;> rfl
  | openParen | closeParen | openBracket | closeBracket | increment | decrement => rfl

theorem regexAllowed_spaces (n : Nat) (b : Text) :
    regexAllowed ((List.replicate n ' ').reverse ++ b) = regexAllowed b := by
  have h : ∀ c ∈ (List.replicate n ' ').reverse, isSpace c := by
    intro c hc
    rw [List.reverse_replicate] at hc
    rw [List.eq_of_mem_replicate hc]
    rfl
  rw [regexAllowed, regexAllowed, List.dropWhile_append_of_pos h]

/-! ### Regular expressions -/

/-- A regular expression that is open before a token is closed by it, or goes on behind it. -/
theorem Token.regexEnd?_text (k : Token) (i : Bool) :
    (k = .operator .divide ∧ i = false) ∨ ∃ j, (Mode.regex i).next k = .regex j ∧
      ∀ t, regexEnd? i (k.text ++ t) = (regexEnd? j t).map (· + k.text.length) := by
  -- the tokens that mean nothing to it
  have hinert (hn : (Mode.regex i).next k = .regex i) (hk : ∀ c ∈ k.text, isInert c) :
      ∃ j, (Mode.regex i).next k = .regex j ∧
        ∀ t, regexEnd? i (k.text ++ t) = (regexEnd? j t).map (· + k.text.length) :=
    ⟨i, hn, regexEnd?_inert i hk⟩
  cases k with
  | name y =>
    exact Or.inr (hinert (by cases i <;> rfl) fun c hc => isInert_of_isWordChar (y.isWord.wordChar hc))
  | number m =>
    have hdigit : ∀ c ∈ m.text, c.isDigit := List.all_eq_true.mp m.digits
    exact Or.inr (hinert (by cases i <;> rfl)
      fun c hc => isInert_of_isWordChar (isWordChar_of_isDigit (hdigit c hc)))
  | openBracket => exact Or.inr ⟨true, by cases i <;> rfl, regexEnd?_cons (by decide)⟩
  | closeBracket => exact Or.inr ⟨false, by cases i <;> rfl, regexEnd?_cons (by decide)⟩
  | operator o =>
    cases o with
    | divide =>
      cases i with
      | false => exact Or.inl ⟨rfl, rfl⟩
      | true => exact Or.inr ⟨true, rfl, regexEnd?_cons (by decide)⟩
    | plus | minus | times | modulo =>
      exact Or.inr (hinert (by cases i <;> rfl) (List.all_eq_true.mp (by decide)))
  | openParen | closeParen | increment | decrement =>
    exact Or.inr (hinert (by cases i <;> rfl) (List.all_eq_true.mp (by decide)))

/-- A regular expression that is open before some tokens is closed by one of them, or goes on. -/
theorem regexEnd?_spaced (ks : List (Token × Nat)) (i : Bool) (r : Text) :
    (∃ ks₁ n ks₂, ks = ks₁ ++ (.operator .divide, n) :: ks₂ ∧
      regexEnd? i (spaced ks ++ r) = some ((spaced ks₁).length + 1) ∧
      (Mode.regex i).after (ks.map Prod.fst) = (Mode.script true).after (ks₂.map Prod.fst)) ∨
    (∃ j, (Mode.regex i).after (ks.map Prod.fst) = .regex j ∧
      regexEnd? i (spaced ks ++ r) = (regexEnd? j r).map (· + (spaced ks).length)) := by
  induction ks generalizing i with
  | nil => exact Or.inr ⟨i, rfl, by simp [spaced]⟩
  | cons k ks ih =>
    obtain ⟨k, n⟩ := k
    have hlen : (spaced ((k, n) :: ks)).length = k.text.length + n + (spaced ks).length := by
      simp [spaced, Nat.add_assoc]
    rcases k.regexEnd?_text i with ⟨rfl, rfl⟩ | ⟨j, hj, hend⟩
    · exact Or.inl ⟨[], n, ks, rfl, by rw [spaced_cons]; rfl, rfl⟩
    · have hfront : regexEnd? i (spaced ((k, n) :: ks) ++ r) =
          (regexEnd? j (spaced ks ++ r)).map (· + (k.text.length + n)) := by
        rw [spaced_cons, hend, regexEnd?_inert j (isInert_spaces n), Option.map_map,
          List.length_replicate]
        congr 1
        funext m
        simp only [Function.comp]
        omega
      rw [List.map_cons, Mode.after_cons, hj, hfront]
      rcases ih j with ⟨ks₁, m, ks₂, rfl, he, ha⟩ | ⟨j', ha, he⟩
      · refine Or.inl ⟨(k, n) :: ks₁, m, ks₂, rfl, ?_, ha⟩
        rw [he, Option.map_some]
        congr 1
        simp only [spaced, List.flatMap_cons, List.length_append, List.length_replicate]
        omega
      · refine Or.inr ⟨j', ha, ?_⟩
        rw [he, Option.map_map, hlen]
        congr 1
        funext m
        simp only [Function.comp]
        omega

end Unbundled.Source
