import Unbundled.Json.Reader

/-! # JSON as it is written

The grammar of strict JSON, said without its reader. A text is a value with white space around it
(`IsText`); values are nested to any depth, with white space between any two tokens (`IsValue`).

Of a string that is passed over only the form of its escapes matters (`IsString`). One that is asked for
stands for a text (`StandsFor`): a character beyond the 16-bit ones is written as itself or as a pair of
surrogates, and half of a pair stands for nothing. -/

namespace Unbundled.Json

/-- White space between tokens. -/
def IsGap (g : Text) : Prop := ∀ c ∈ g, c = ' ' ∨ c = '\t' ∨ c = '\n' ∨ c = '\r'

/-! ### Numbers -/

/-- Digits, at least one. -/
structure IsDigits (t : Text) : Prop where
  ne_nil : t ≠ []
  digits : ∀ c ∈ t, c.isDigit

/-- The part of a number before its point: no zero stands in front of a further digit. -/
inductive IsWhole : Text → Prop
  | zero : IsWhole ['0']
  | digits {c : Char} {t : Text} (hc : c.isDigit) (hz : c ≠ '0') (ht : ∀ d ∈ t, d.isDigit) :
    IsWhole (c :: t)

/-- The part of a number after its whole part: a fraction or none. -/
inductive IsFraction : Text → Prop
  | absent : IsFraction []
  | present {t : Text} (ht : IsDigits t) : IsFraction ('.' :: t)

/-- The last part of a number: an exponent or none. -/
inductive IsExponent : Text → Prop
  | absent : IsExponent []
  | present {e : Char} {sign t : Text} (he : e = 'e' ∨ e = 'E')
    (hs : sign = [] ∨ sign = ['+'] ∨ sign = ['-']) (ht : IsDigits t) : IsExponent (e :: (sign ++ t))

/-- **A number.** -/
inductive IsNumber : Text → Prop
  | parts {sign whole fraction exponent : Text} (hs : sign = [] ∨ sign = ['-']) (hw : IsWhole whole)
    (hf : IsFraction fraction) (he : IsExponent exponent) :
    IsNumber (sign ++ (whole ++ (fraction ++ exponent)))

/-! ### Strings -/

/-- A character that stands for itself. -/
structure IsPlain (c : Char) : Prop where
  quote : c ≠ '"'
  backslash : c ≠ '\\'
  control : 0x20 ≤ c.toNat

instance (c : Char) : Decidable (IsPlain c) :=
  decidable_of_iff (c ≠ '"' ∧ c ≠ '\\' ∧ 0x20 ≤ c.toNat)
    ⟨fun ⟨hq, hb, hc⟩ => ⟨hq, hb, hc⟩, fun ⟨hq, hb, hc⟩ => ⟨hq, hb, hc⟩⟩

/-- What may follow a backslash, and the character that the two stand for. -/
def shortEscapes : List (Char × Char) :=
  [('"', '"'), ('\\', '\\'), ('/', '/'), ('b', '\x08'), ('f', '\x0C'), ('n', '\n'), ('r', '\r'),
    ('t', '\t')]

/-- The hexadecimal digits of either case, and their values. -/
def hexDigits : List (Char × Nat) := "0123456789abcdef".toList.zipIdx ++ "ABCDEF".toList.zipIdx 10

/-- Four hexadecimal digits, and the number that they make. -/
inductive IsUnit : Text → Nat → Prop
  | digits {a b c d : Char} {i j k l : Nat} (ha : (a, i) ∈ hexDigits) (hb : (b, j) ∈ hexDigits)
    (hc : (c, k) ∈ hexDigits) (hd : (d, l) ∈ hexDigits) :
    IsUnit [a, b, c, d] (((i * 16 + j) * 16 + k) * 16 + l)

/-- **The inside of a string.** -/
inductive IsString : Text → Prop
  | nil : IsString []
  | char {c : Char} {t : Text} (hc : IsPlain c) (ht : IsString t) : IsString (c :: t)
  | short {e x : Char} {t : Text} (he : (e, x) ∈ shortEscapes) (ht : IsString t) :
    IsString ('\\' :: e :: t)
  | unit {h t : Text} {n : Nat} (hn : IsUnit h n) (ht : IsString t) :
    IsString ('\\' :: 'u' :: (h ++ t))

/-- The first half of a pair of surrogates. -/
def IsHigh (n : Nat) : Prop := 0xD800 ≤ n ∧ n ≤ 0xDBFF

/-- The second half. -/
def IsLow (n : Nat) : Prop := 0xDC00 ≤ n ∧ n ≤ 0xDFFF

instance (n : Nat) : Decidable (IsHigh n) := inferInstanceAs (Decidable (0xD800 ≤ n ∧ n ≤ 0xDBFF))

instance (n : Nat) : Decidable (IsLow n) := inferInstanceAs (Decidable (0xDC00 ≤ n ∧ n ≤ 0xDFFF))

/-- **The inside of a string, and the text that it stands for.** -/
inductive StandsFor : Text → Text → Prop
  | nil : StandsFor [] []
  | char {c : Char} {raw t : Text} (hc : IsPlain c) (ht : StandsFor raw t) :
    StandsFor (c :: raw) (c :: t)
  | short {e x : Char} {raw t : Text} (he : (e, x) ∈ shortEscapes) (ht : StandsFor raw t) :
    StandsFor ('\\' :: e :: raw) (x :: t)
  | unit {h raw t : Text} {n : Nat} (hn : IsUnit h n) (hhigh : ¬ IsHigh n) (hlow : ¬ IsLow n)
    (ht : StandsFor raw t) : StandsFor ('\\' :: 'u' :: (h ++ raw)) (Char.ofNat n :: t)
  | pair {h h' raw t : Text} {m n : Nat} (hm : IsUnit h m) (hn : IsUnit h' n) (hhigh : IsHigh m)
    (hlow : IsLow n) (ht : StandsFor raw t) :
    StandsFor ('\\' :: 'u' :: (h ++ '\\' :: 'u' :: (h' ++ raw)))
      (Char.ofNat (0x10000 + (m - 0xD800) * 0x400 + (n - 0xDC00)) :: t)

/-! ### Values -/

mutual

/-- **A value as it is written.** -/
inductive IsValue : Json → Text → Prop
  | null : IsValue .null "null".toList
  | true : IsValue (.bool true) "true".toList
  | false : IsValue (.bool false) "false".toList
  | number {digits : Text} (hd : IsNumber digits) : IsValue (.number digits) digits
  | string {raw : Text} (hr : IsString raw) : IsValue (.string raw) ('"' :: (raw ++ ['"']))
  | emptyArray {g : Text} (hg : IsGap g) : IsValue (.array []) ('[' :: (g ++ [']']))
  | array {items : List Json} {t : Text} (ht : IsItems items t) :
    IsValue (.array items) ('[' :: (t ++ [']']))
  | emptyObject {g : Text} (hg : IsGap g) : IsValue (.object []) ('\x7b' :: (g ++ ['\x7d']))
  | object {members : List (Text × Json)} {t : Text} (ht : IsMembers members t) :
    IsValue (.object members) ('\x7b' :: (t ++ ['\x7d']))

/-- **A value with white space around it**: a whole text, an item of an array, or what follows the colon
of a member. -/
inductive IsText : Json → Text → Prop
  | gaps {v : Json} {g t g' : Text} (hg : IsGap g) (hv : IsValue v t) (hg' : IsGap g') :
    IsText v (g ++ (t ++ g'))

/-- The items of an array, with commas between them. -/
inductive IsItems : List Json → Text → Prop
  | last {v : Json} {t : Text} (hv : IsText v t) : IsItems [v] t
  | more {v : Json} {items : List Json} {t u : Text} (hv : IsText v t) (hu : IsItems items u) :
    IsItems (v :: items) (t ++ ',' :: u)

/-- The members of an object, with commas between them. -/
inductive IsMembers : List (Text × Json) → Text → Prop
  | last {g key g' t : Text} {v : Json} (hg : IsGap g) (hk : IsString key) (hg' : IsGap g')
    (hv : IsText v t) : IsMembers [(key, v)] (g ++ '"' :: (key ++ '"' :: (g' ++ ':' :: t)))
  | more {g key g' t u : Text} {v : Json} {members : List (Text × Json)} (hg : IsGap g)
    (hk : IsString key) (hg' : IsGap g') (hv : IsText v t) (hu : IsMembers members u) :
    IsMembers ((key, v) :: members) (g ++ '"' :: (key ++ '"' :: (g' ++ ':' :: (t ++ ',' :: u))))

end

end Unbundled.Json
