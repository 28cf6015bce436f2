import Mathlib.Tactic.Common
import Unbundled.Source.Lexeme
import Unbundled.Text.Literal

/-! # Closed strings

What the reader of strings takes for the inside of a string, said without the reader: the characters
that no backslash escapes (`unescaped`) hold neither the quote nor the end of a line, and the last
backslash has something to escape (`Inside`).

* `stringEnd?_append`: such an inside is read up to the quote after it.
* `append_of_stringEnd?`: whatever is read is such an inside.
* `inside_flatMap_escape`: so is what is written between the quotes of a literal.
-/

namespace Unbundled.Source

/-- The characters of a text that no backslash escapes. A backslash that escapes the character after
it is not among them; one with nothing after it is. -/
def unescaped : Text → Text
  | '\\' :: _ :: t => unescaped t
  | c :: t => c :: unescaped t
  | [] => []

/-- What may stand between two quotes `q` of one string: neither the quote nor the end of a line
stands there without a backslash, and the last backslash escapes something. -/
structure Inside (q : Char) (raw : Text) : Prop where
  quote : q ∉ unescaped raw
  newline : '\n' ∉ unescaped raw
  backslash : '\\' ∉ unescaped raw

theorem unescaped_escape (c : Char) (t : Text) : unescaped ('\\' :: c :: t) = unescaped t := by
  rw [unescaped]

theorem unescaped_cons {c : Char} (h : c ≠ '\\') (t : Text) :
    unescaped (c :: t) = c :: unescaped t := by
  rw [unescaped]
  exact fun _ _ hc _ => h hc

theorem inside_nil (q : Char) : Inside q [] := by
  constructor <;> simp [unescaped]

theorem inside_escape_iff {q c : Char} {t : Text} : Inside q ('\\' :: c :: t) ↔ Inside q t := by
  constructor
  · rintro ⟨h1, h2, h3⟩
    rw [unescaped_escape] at h1 h2 h3
    exact ⟨h1, h2, h3⟩
  · rintro ⟨h1, h2, h3⟩
    rw [← unescaped_escape c t] at h1 h2 h3
    exact ⟨h1, h2, h3⟩

theorem inside_cons_iff {q c : Char} {t : Text} (h : c ≠ '\\') :
    Inside q (c :: t) ↔ c ≠ q ∧ c ≠ '\n' ∧ Inside q t := by
  constructor
  · rintro ⟨h1, h2, h3⟩
    rw [unescaped_cons h, List.mem_cons, not_or] at h1 h2 h3
    exact ⟨Ne.symm h1.1, Ne.symm h2.1, h1.2, h2.2, h3.2⟩
  · rintro ⟨hq, hn, h1, h2, h3⟩
    constructor <;> rw [unescaped_cons h, List.mem_cons, not_or]
    · exact ⟨Ne.symm hq, h1⟩
    · exact ⟨Ne.symm hn, h2⟩
    · exact ⟨Ne.symm h, h3⟩

theorem not_inside_backslash (q : Char) : ¬ Inside q ['\\'] :=
  fun h => h.backslash (by simp [unescaped])

theorem stringEnd?_escape (q c : Char) (t : Text) :
    stringEnd? q ('\\' :: c :: t) = (stringEnd? q t).map (· + 2) := by
  rw [stringEnd?]

theorem stringEnd?_cons {q c : Char} (h : c ≠ '\\') (t : Text) :
    stringEnd? q (c :: t) =
      if c = '\n' then none else if c = q then some 1 else (stringEnd? q t).map (· + 1) := by
  rw [stringEnd?]
  exact fun _ _ hc _ => h hc

/-- A string is read up to its first quote that is not escaped. -/
theorem stringEnd?_append {q : Char} (hq : isQuote q) (t : Text) {raw : Text} (h : Inside q raw) :
    stringEnd? q (raw ++ q :: t) = some (raw.length + 1) := by
  fun_induction unescaped raw with
  | case1 c raw ih =>
    rw [List.cons_append, List.cons_append, stringEnd?_escape, ih (inside_escape_iff.mp h)]
    rfl
  | case2 c raw hne ih =>
    have hc : c ≠ '\\' := by
      rintro rfl
      cases raw with
      | nil => exact not_inside_backslash q h
      | cons d raw => exact hne d raw rfl rfl
    obtain ⟨h1, h2, h3⟩ := (inside_cons_iff hc).mp h
    rw [List.cons_append, stringEnd?_cons hc, if_neg h2, if_neg h1, ih h3]
    rfl
  | case3 =>
    rw [List.nil_append, stringEnd?_cons (by rintro rfl; exact absurd hq (by decide)),
      if_neg (by rintro rfl; exact absurd hq (by decide)), if_pos rfl]
    rfl

/-- What a string that was read looks like. -/
theorem append_of_stringEnd? {q : Char} {t : Text} {n : Nat} (h : stringEnd? q t = some n) :
    ∃ raw rest, Inside q raw ∧ t = raw ++ q :: rest ∧ n = raw.length + 1 := by
  fun_induction stringEnd? q t generalizing n with
  | case1 c t ih =>
    obtain ⟨m, hm, rfl⟩ := Option.map_eq_some_iff.mp h
    obtain ⟨raw, rest, hin, rfl, rfl⟩ := ih hm
    exact ⟨'\\' :: c :: raw, rest, inside_escape_iff.mpr hin, rfl, rfl⟩
  | case2 t hne => exact absurd h (by simp)
  | case3 t _ hne =>
    obtain rfl : 1 = n := by simpa using h
    exact ⟨[], t, inside_nil q, rfl, rfl⟩
  | case4 c t hne hn hq ih =>
    obtain ⟨m, hm, rfl⟩ := Option.map_eq_some_iff.mp h
    have hc : c ≠ '\\' := by
      rintro rfl
      cases t with
      | nil => exact absurd hm (by simp [stringEnd?])
      | cons d t => exact hne d t rfl rfl
    obtain ⟨raw, rest, hin, rfl, rfl⟩ := ih hm
    exact ⟨c :: raw, rest, (inside_cons_iff hc).mpr ⟨hq, hn, hin⟩, rfl, rfl⟩
  | case5 => exact absurd h (by simp)

/-! ### Literals -/

/-- The string literal with the quotes `q` and the inside `raw`. -/
def quoted (q : Char) (raw : Text) : Text := q :: (raw ++ [q])

theorem quoted_append (q : Char) (raw t : Text) : quoted q raw ++ t = q :: (raw ++ q :: t) := by
  rw [quoted, List.cons_append, List.append_assoc, List.singleton_append]

theorem length_quoted (q : Char) (raw : Text) : (quoted q raw).length = raw.length + 1 + 1 := by
  rw [quoted, List.length_cons, List.length_append, List.length_singleton]

theorem bytes_quoted {q : Char} (hq : isQuote q) (raw : Text) :
    Text.bytes (quoted q raw) = Text.bytes raw + 2 := by
  have h1 : q.utf8Size = 1 := by
    simp only [isQuote, Bool.or_eq_true, beq_iff_eq] at hq
    rcases hq with rfl | rfl <;> rfl
  rw [quoted, Text.bytes_cons, Text.bytes_append, Text.bytes_cons, Text.bytes_nil, h1]
  omega

/-! ### Written literals -/

theorem hexDigit_plain : ∀ n < 16, Literal.hexDigit n ≠ '\\' ∧ Literal.hexDigit n ≠ '"' ∧
    Literal.hexDigit n ≠ '\n' := by
  decide

theorem inside_escape_append (c : Char) {t : Text} (h : Inside '"' t) :
    Inside '"' (Literal.escape c ++ t) := by
  unfold Literal.escape
  split
  · exact inside_escape_iff.mpr h
  split
  · exact inside_escape_iff.mpr h
  split
  · exact inside_escape_iff.mpr h
  split
  · exact inside_escape_iff.mpr h
  split
  · exact inside_escape_iff.mpr h
  split
  · exact inside_escape_iff.mpr h
  split
  · exact inside_escape_iff.mpr h
  split
  · obtain ⟨h1, h2, h3⟩ := hexDigit_plain (c.toNat / 16) (by omega)
    obtain ⟨h4, h5, h6⟩ := hexDigit_plain (c.toNat % 16) (by omega)
    have hlast := (inside_cons_iff h1).mpr ⟨h2, h3, (inside_cons_iff h4).mpr ⟨h5, h6, h⟩⟩
    exact inside_escape_iff.mpr ((inside_cons_iff (by decide)).mpr ⟨by decide, by decide,
      (inside_cons_iff (by decide)).mpr ⟨by decide, by decide, hlast⟩⟩)
  · rename_i hq hb _ _ hn _ _ _
    exact (inside_cons_iff hb).mpr ⟨hq, hn, h⟩

theorem inside_flatMap_escape (t : Text) : Inside '"' (t.flatMap Literal.escape) := by
  induction t with
  | nil => exact inside_nil '"'
  | cons c t ih => exact inside_escape_append c ih

end Unbundled.Source
