import Mathlib.Data.List.TakeWhile
import Unbundled.Proofs.Source.Strings
import Unbundled.Proofs.Text.Parts

/-! # Lexemes by their first character

Which lexeme a character opens is known from the character alone, up to where it is closed. The
lemmas `read_…` say so for each class of characters; a backtick and a slash that opens no comment are
the only characters that need more. -/

namespace Unbundled.Source

/-! ### Classes of characters -/

theorem isSpace_iff {x : Char} :
    isSpace x ↔ x = ' ' ∨ x = '\t' ∨ x = '\n' ∨ x = '\x0C' ∨ x = '\r' := by
  simp [isSpace, or_assoc]

theorem isQuote_iff {x : Char} : isQuote x ↔ x = '\x27' ∨ x = '"' := by simp [isQuote]

theorem isWordChar_of_isWordStart {x : Char} (h : isWordStart x) : isWordChar x := by
  unfold isWordStart at h
  unfold isWordChar Char.isAlphanum
  simp only [Bool.or_eq_true] at h ⊢
  rcases h with (h | h) | h
  · exact Or.inl (Or.inl (Or.inl h))
  · exact Or.inl (Or.inr h)
  · exact Or.inr h

/-- A character that opens neither a comment, a regular expression, a string, a template literal nor
a word. -/
def isPlain (x : Char) : Bool := x != '/' && x != backtick && !isQuote x && !isWordStart x

theorem isPlain_of_isSpace {x : Char} (h : isSpace x) : isPlain x := by
  rcases isSpace_iff.mp h with rfl | rfl | rfl | rfl | rfl <;> decide

theorem not_isWordChar_of_isQuote {x : Char} (h : isQuote x) : ¬ isWordChar x := by
  rcases isQuote_iff.mp h with rfl | rfl <;> decide

theorem not_isWordChar_of_isSpace {x : Char} (h : isSpace x) : ¬ isWordChar x := by
  rcases isSpace_iff.mp h with rfl | rfl | rfl | rfl | rfl <;> decide

/-! ### Words -/

/-- A text that is one word. -/
structure IsWord (w : Text) : Prop where
  opens : w.head?.any isWordStart
  chars : w.all isWordChar

theorem IsWord.wordChar {w : Text} {x : Char} (h : IsWord w) (hx : x ∈ w) : isWordChar x :=
  List.all_eq_true.mp h.chars x hx

theorem IsWord.length_pos {w : Text} (h : IsWord w) : 0 < w.length := by
  rw [List.length_pos_iff]
  rintro rfl
  exact absurd h.opens (by decide)

theorem IsWord.not_mem {w : Text} {x : Char} (h : IsWord w) (hx : ¬ isWordChar x) : x ∉ w :=
  fun hm => hx (h.wordChar hm)

/-- No word goes on at the start of a text. -/
def NoWord (t : Text) : Prop := ∀ x ∈ t.head?, ¬ isWordChar x

theorem NoWord.append {t u : Text} (ht : NoWord t) (hu : NoWord u) : NoWord (t ++ u) := by
  cases t with
  | nil => exact hu
  | cons x t => exact ht

theorem noWord_cons {x : Char} (h : ¬ isWordChar x) (t : Text) : NoWord (x :: t) := by
  intro y hy
  obtain rfl : x = y := by simpa using hy
  exact h

/-- The word characters at the front of a text end where a character of another class follows. -/
theorem wordEnd_append {w t : Text} (hw : ∀ c ∈ w, isWordChar c) (ht : NoWord t) :
    wordEnd (w ++ t) = w.length := by
  rw [wordEnd, (Text.span_stop hw ht).1]

theorem IsWord.shape {w t : Text} (h : IsWord w) (ht : NoWord t) :
    ∃ x u, w = x :: u ∧ isWordStart x ∧ wordEnd (u ++ t) = u.length := by
  obtain ⟨x, u, rfl⟩ : ∃ x u, w = x :: u := by
    cases w with
    | nil => exact absurd h.opens (by decide)
    | cons x u => exact ⟨x, u, rfl⟩
  exact ⟨x, u, rfl, h.opens, wordEnd_append (fun y hy => h.wordChar (List.mem_cons_of_mem x hy)) ht⟩

theorem isWordChar_of_lt_wordEnd {t u : Text} {k : Nat} {x : Char} (hk : k < wordEnd t)
    (h : t.drop k = x :: u) : isWordChar x := by
  unfold wordEnd at hk
  rw [← List.takeWhile_append_dropWhile (p := isWordChar) (l := t),
    List.drop_append_of_le_length (Nat.le_of_lt hk)] at h
  cases hd : (t.takeWhile isWordChar).drop k with
  | nil =>
    have := List.drop_eq_nil_iff.mp hd
    omega
  | cons y v =>
    rw [hd, List.cons_append] at h
    obtain ⟨rfl, -⟩ := List.cons.inj h
    exact List.mem_takeWhile_imp (List.mem_of_mem_drop (hd ▸ List.mem_cons_self))

/-- Inside a word, a word goes on. -/
theorem not_noWord_of_le_wordEnd {t : Text} {x : Char} {k : Nat} (hx : isWordStart x)
    (hk : k ≤ wordEnd t) (b : Text) : ¬ NoWord ((x :: t.take k).reverse ++ b) := by
  have hall : ∀ y ∈ x :: t.take k, isWordChar y := by
    intro y hy
    rcases List.mem_cons.mp hy with rfl | hy
    · exact isWordChar_of_isWordStart hx
    · rw [← List.takeWhile_append_dropWhile (p := isWordChar) (l := t),
        List.take_append_of_le_length hk] at hy
      exact List.mem_takeWhile_imp (List.mem_of_mem_take hy)
  obtain ⟨y, u, hy⟩ := List.exists_cons_of_ne_nil
    (List.reverse_ne_nil_iff.mpr (List.cons_ne_nil x (t.take k)))
  intro h
  rw [hy] at h
  exact h y rfl (hall y (List.mem_reverse.mp (hy ▸ List.mem_cons_self)))

/-! ### Lexemes -/

namespace Lexeme

variable {behind t : Text} {x : Char}

theorem read_plain (h : isPlain x) : read behind x t = single := by
  simp only [isPlain, Bool.and_eq_true, bne_iff_ne, Bool.not_eq_true', ne_eq] at h
  obtain ⟨⟨⟨h1, h2⟩, h3⟩, h4⟩ := h
  rw [read, if_neg h2, readFlat, if_neg h1, if_neg (by simp [h3]), if_neg (by simp [h4])]

theorem read_word (h : isWordStart x) : read behind x t = ⟨.word, wordEnd t⟩ := by
  have h1 : x ≠ '/' := by rintro rfl; exact absurd h (by decide)
  have h2 : x ≠ backtick := by rintro rfl; exact absurd h (by decide)
  have h3 : ¬ isQuote x := fun hq => not_isWordChar_of_isQuote hq (isWordChar_of_isWordStart h)
  rw [read, if_neg h2, readFlat, if_neg h1, if_neg h3, if_pos h]

theorem ne_of_isQuote (h : isQuote x) : x ≠ '/' ∧ x ≠ backtick := by
  rcases isQuote_iff.mp h with rfl | rfl <;> decide

theorem read_string {n : Nat} (h : isQuote x) (hn : stringEnd? x t = some n) :
    read behind x t = ⟨.string, n⟩ := by
  obtain ⟨h1, h2⟩ := ne_of_isQuote h
  rw [read, if_neg h2, readFlat, if_neg h1, if_pos h, hn]

theorem read_open_quote (h : isQuote x) (hn : stringEnd? x t = none) :
    read behind x t = single := by
  obtain ⟨h1, h2⟩ := ne_of_isQuote h
  rw [read, if_neg h2, readFlat, if_neg h1, if_pos h, hn]

theorem read_comment {n : Nat} (hn : commentEnd? t = some n) :
    read behind '/' t = ⟨.comment, n⟩ := by
  rw [read, if_neg (by decide), readFlat, if_pos rfl, hn]

/-- A lexeme is a single character of no kind, a word, or no code at all. -/
theorem read_cases (behind : Text) (x : Char) (t : Text) :
    read behind x t = single ∨ (isWordStart x ∧ read behind x t = ⟨.word, wordEnd t⟩) ∨
      (read behind x t).kind ∉ [Kind.word, .other] := by
  unfold read readFlat
  split
  · exact Or.inr (Or.inr (by simp))
  split
  · split
    · exact Or.inr (Or.inr (by simp))
    split
    · split
      · exact Or.inr (Or.inr (by simp))
      · exact Or.inl rfl
    · exact Or.inl rfl
  split
  · split
    · exact Or.inr (Or.inr (by simp))
    · exact Or.inl rfl
  split
  · rename_i hw
    exact Or.inr (Or.inl ⟨hw, rfl⟩)
  · exact Or.inl rfl

end Lexeme

end Unbundled.Source
