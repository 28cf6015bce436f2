import Unbundled.Proofs.Source.Lexemes
import Unbundled.Text.Literal

/-! # Spelled names

The names of the language may hold any letter and may be written with escapes, while the words of the
scan are ASCII. A name is `Spelled` with word characters, characters beyond ASCII and escapes; a list
of names holds commas and white space as well.

* `Spelled.dropWhile`: what follows a word in a spelled text is spelled.
* `lastWord`: the word that a text ends with, which the scan takes for a word of its own. -/

namespace Unbundled.Source

/-- A character beyond ASCII. -/
def isWide (c : Char) : Bool := 128 ≤ c.toNat

/-- A hexadecimal digit. -/
def isHex (c : Char) : Bool := (Literal.hexValue? c).isSome

/-- What separates the names of a list: a comma, white space or a vertical tab. -/
def isSeparator (c : Char) : Bool := c == ',' || isSpace c || c == '\x0B'

/-- A character that may stand for itself in a list of names. -/
def isListChar (c : Char) : Bool := isWordChar c || isWide c || isSeparator c

/-- Texts of the characters of names, of the characters `also`, and of escapes. -/
inductive Spelled (also : Char → Bool) : Text → Prop
  | nil : Spelled also []
  | char {x : Char} {t : Text} : (isWordChar x || isWide x || also x) = true → Spelled also t →
      Spelled also (x :: t)
  /-- `\uXXXX` -/
  | unit {h t : Text} : (∀ x ∈ h, isHex x) → h.length = 4 → Spelled also t →
      Spelled also ('\\' :: 'u' :: (h ++ t))
  /-- `\u` with the number of a character in braces -/
  | point {h t : Text} : (∀ x ∈ h, isHex x) → h ≠ [] → Spelled also t →
      Spelled also ('\\' :: 'u' :: '\x7b' :: (h ++ '\x7d' :: t))

/-- The escape with the number `h` of a character in braces. -/
def point (h : Text) : Text := '\\' :: 'u' :: '\x7b' :: (h ++ ['\x7d'])

theorem point_append (h t : Text) :
    point h ++ t = '\\' :: 'u' :: '\x7b' :: (h ++ '\x7d' :: t) := by
  simp [point]

/-- No character is added: the texts of single names. -/
def noSeparator (_ : Char) : Bool := false

variable {also : Char → Bool} {t u : Text} {x : Char}

theorem Spelled.mono {others : Char → Bool} (h : Spelled also t)
    (ha : ∀ x, also x → others x) : Spelled others t := by
  induction h with
  | nil => exact .nil
  | char hx _ ih =>
    refine .char ?_ ih
    simp only [Bool.or_eq_true] at hx ⊢
    rcases hx with hx | hx
    · exact Or.inl hx
    · exact Or.inr (ha _ hx)
  | unit hh hl _ ih => exact .unit hh hl ih
  | point hh hl _ ih => exact .point hh hl ih

theorem Spelled.list (h : Spelled noSeparator t) : Spelled isSeparator t :=
  h.mono fun _ hx => absurd hx Bool.false_ne_true

theorem isWordChar_of_isHex (h : isHex x) : isWordChar x := by
  have hc : x.isAlphanum := by
    unfold isHex Literal.hexValue? at h
    unfold Char.isAlphanum
    split at h
    · rename_i hd
      have hdigit : x.isDigit := by
        rw [Char.isDigit, Bool.and_eq_true, decide_eq_true_eq, decide_eq_true_eq]
        exact hd
      rw [hdigit, Bool.or_true]
    split at h
    · rename_i hl
      have hz := UInt32.le_trans hl.2 (show 'f'.val ≤ 'z'.val by decide)
      have hlower : x.isLower := (Bool.and_eq_true _ _).mpr ⟨decide_eq_true hl.1, decide_eq_true hz⟩
      have halpha : x.isAlpha := (Bool.or_eq_true _ _).mpr (Or.inr hlower)
      rw [halpha, Bool.true_or]
    split at h
    · rename_i hu
      have hz := UInt32.le_trans hu.2 (show 'F'.val ≤ 'Z'.val by decide)
      have hupper : x.isUpper := decide_eq_true ⟨hu.1, hz⟩
      have halpha : x.isAlpha := (Bool.or_eq_true _ _).mpr (Or.inl hupper)
      rw [halpha, Bool.true_or]
    · exact absurd h (by decide)
  simp [isWordChar, hc]

theorem Spelled.append_word {h : Text} (hh : ∀ x ∈ h, isWordChar x) (ht : Spelled also t) :
    Spelled also (h ++ t) := by
  induction h with
  | nil => exact ht
  | cons x h ih =>
    have hx := hh x List.mem_cons_self
    exact .char (by simp [hx]) (ih fun y hy => hh y (List.mem_cons_of_mem x hy))

/-- An escape without braces is a backslash before something spelled. -/
theorem Spelled.after_backslash {h : Text} (hh : ∀ x ∈ h, isHex x) (ht : Spelled also t) :
    Spelled also ('u' :: (h ++ t)) :=
  .char (by simp [show isWordChar 'u' by decide])
    (ht.append_word fun y hy => isWordChar_of_isHex (hh y hy))

theorem Spelled.dropWhile (h : Spelled also t) : Spelled also (t.dropWhile isWordChar) := by
  induction h with
  | nil => exact .nil
  | @char x t hx ht ih =>
    by_cases hw : isWordChar x
    · rwa [List.dropWhile_cons_of_pos hw]
    · rw [List.dropWhile_cons_of_neg hw]
      exact .char hx ht
  | unit hh hl ht _ => exact .unit hh hl ht
  | point hh hl ht _ => exact .point hh hl ht

/-- A spelled text that opens with a word goes on after it. -/
theorem Spelled.exists_word (h : Spelled also (x :: t)) (hx : isWordStart x) :
    ∃ w u, x :: t = w ++ u ∧ IsWord w ∧ NoWord u ∧ Spelled also u := by
  have hw := isWordChar_of_isWordStart hx
  refine ⟨(x :: t).takeWhile isWordChar, (x :: t).dropWhile isWordChar,
    List.takeWhile_append_dropWhile.symm, ⟨?_, ?_⟩, ?_, h.dropWhile⟩
  · rw [List.takeWhile_cons_of_pos hw]
    exact hx
  · exact List.all_takeWhile
  · exact Text.head?_dropWhile isWordChar (x :: t)

/-- The first closing brace of a spelled list ends an escape. -/
theorem Spelled.exists_brace (h : Spelled isSeparator t) (hm : '\x7d' ∈ t) :
    ∃ u v, t = u ++ '\x7d' :: v ∧ '\x7d' ∉ u ∧ Spelled isSeparator v := by
  have hhex : ∀ {h : Text}, (∀ x ∈ h, isHex x) → '\x7d' ∉ h := by
    intro h hh hm
    exact absurd (hh _ hm) (by decide)
  induction h with
  | nil => exact absurd hm List.not_mem_nil
  | @char x t hx _ ih =>
    have hne : '\x7d' ≠ x := by rintro rfl; exact absurd hx (by decide)
    obtain ⟨u, v, rfl, hu, hv⟩ := ih ((List.mem_cons.mp hm).resolve_left hne)
    exact ⟨x :: u, v, rfl, by simp [hne, hu], hv⟩
  | @unit h t hh _ _ ih =>
    have hm' : '\x7d' ∈ t := by simpa [hhex hh] using hm
    obtain ⟨u, v, rfl, hu, hv⟩ := ih hm'
    exact ⟨'\\' :: 'u' :: (h ++ u), v, by simp, by simp [hhex hh, hu], hv⟩
  | @point h t hh _ ht _ => exact ⟨'\\' :: 'u' :: '\x7b' :: h, t, rfl, by simp [hhex hh], ht⟩

/-! ### The last word -/

/-- The word that ends a text, from its first character that a word may start with. It is empty if the
text ends with something else. -/
def lastWord : Text → Text
  | [] => []
  | x :: t => if isWordStart x && t.all isWordChar then x :: t else lastWord t

theorem lastWord_cons (h : ¬ isWordStart x) (t : Text) : lastWord (x :: t) = lastWord t := by
  rw [lastWord, if_neg (by simp [h])]

/-- A word that does not go on to the end is not the last one. -/
theorem lastWord_append (h : ¬ isWordChar x) (t u : Text) :
    lastWord (u ++ x :: t) = lastWord (x :: t) := by
  induction u with
  | nil => rfl
  | cons y u ih =>
    rw [List.cons_append, lastWord, if_neg (by simp [h]), ih]

theorem lastWord_point (h t : Text) : lastWord (point h ++ t) = lastWord t := by
  have hbrace := lastWord_append (x := '\x7d') (by decide) t ('\\' :: 'u' :: '\x7b' :: h)
  rw [point_append]
  exact hbrace.trans (lastWord_cons (by decide) t)

/-- A word is the last one of its own text. -/
theorem lastWord_of_isWord (h : IsWord t) : lastWord t = t := by
  obtain ⟨x, u, rfl, hx, -⟩ := h.shape (t := []) (by simp [NoWord])
  have hu : u.all isWordChar :=
    List.all_eq_true.mpr fun y hy => h.wordChar (List.mem_cons_of_mem x hy)
  rw [lastWord, hx, hu, Bool.and_true, if_pos rfl]

end Unbundled.Source
