import Mathlib.Tactic.Common
import Unbundled.Proofs.Json.Grammar
import Unbundled.Proofs.Text.Parts

/-! # Strings and numbers of JSON

What the grammar says of strings and numbers, the readers find.

* `IsString.stringSize?_append`, `IsString.wellEscaped`: a string ends at its own quote, and its escapes
  are of a known form.
* `StandsFor.decode?_eq`: it is read as the text that it stands for.
* `IsNumber.isNumber`: a number is accepted as one. -/

namespace Unbundled.Json

open Token (stringSize? isNumberChar)
open Literal (hexValue? hexUnit? shortEscape? decode? wellEscaped)

variable {c e x : Char} {digits exponent fraction h raw s t whole : Text} {n : Nat}

/-! ### Hexadecimal digits -/

theorem hexValue?_eq (hc : (c, n) ∈ hexDigits) : hexValue? c = some n := by
  have hall : ∀ p ∈ hexDigits, hexValue? p.1 = some p.2 := by decide
  exact hall _ hc

theorem isPlain_of_hexDigit (hc : (c, n) ∈ hexDigits) : IsPlain c := by
  have hall : ∀ p ∈ hexDigits, IsPlain p.1 := by decide
  exact hall _ hc

theorem IsUnit.hexUnit?_append (hn : IsUnit h n) (t : Text) : hexUnit? (h ++ t) = some n := by
  obtain ⟨ha, hb, hc, hd⟩ := hn
  simp only [List.cons_append, hexUnit?, hexValue?_eq ha, hexValue?_eq hb, hexValue?_eq hc,
    hexValue?_eq hd, Option.bind_eq_bind, Option.bind_some]

theorem IsUnit.drop_append (hn : IsUnit h n) (t : Text) : (h ++ t).drop 4 = t := by
  refine List.drop_left' ?_
  cases hn
  rfl

theorem IsUnit.isPlain (hn : IsUnit h n) : ∀ c ∈ h, IsPlain c := by
  obtain ⟨ha, hb, hc, hd⟩ := hn
  simpa using ⟨isPlain_of_hexDigit ha, isPlain_of_hexDigit hb, isPlain_of_hexDigit hc,
    isPlain_of_hexDigit hd⟩

/-! ### The inside of a string -/

theorem shortEscape?_eq (he : (e, x) ∈ shortEscapes) : shortEscape? e = some x := by
  have hall : ∀ p ∈ shortEscapes, shortEscape? p.1 = some p.2 := by decide
  exact hall _ he

theorem stringSize?_escape (c : Char) (t : Text) :
    stringSize? ('\\' :: c :: t) = (stringSize? t).map (· + 2) := by
  rw [stringSize?]

theorem stringSize?_plain (hc : IsPlain c) (t : Text) :
    stringSize? (c :: t) = (stringSize? t).map (· + 1) := by
  rw [stringSize?, if_neg hc.quote, if_neg (Nat.not_lt.mpr hc.control)]
  exact fun _ _ h _ => hc.backslash h

theorem stringSize?_append (hs : ∀ c ∈ s, IsPlain c) (t : Text) :
    stringSize? (s ++ t) = (stringSize? t).map (· + s.length) := by
  induction s with
  | nil => exact Option.map_id'.symm
  | cons c s ih =>
    rw [List.cons_append, stringSize?_plain (hs c List.mem_cons_self),
      ih fun c hc => hs c (List.mem_cons_of_mem _ hc), Option.map_map]
    rfl

theorem IsString.stringSize?_append (hr : IsString raw) (t : Text) :
    stringSize? (raw ++ '"' :: t) = some raw.length := by
  induction hr with
  | nil =>
    rw [List.nil_append, stringSize?, if_pos rfl]
    · rfl
    · exact fun _ _ h _ => absurd h (by decide)
  | char hc _ ih => rw [List.cons_append, stringSize?_plain hc, ih]; rfl
  | short _ _ ih => rw [List.cons_append, List.cons_append, stringSize?_escape, ih]; rfl
  | @unit h t n hn _ ih =>
    rw [List.cons_append, List.cons_append, stringSize?_escape, List.append_assoc,
      Json.stringSize?_append hn.isPlain, ih]
    simp only [Option.map_some, List.length_cons, List.length_append, Nat.add_comm h.length]

theorem wellEscaped_plain (hc : IsPlain c) (t : Text) : wellEscaped (c :: t) = wellEscaped t := by
  rw [wellEscaped, bne_iff_ne.mpr hc.backslash, Bool.true_and]
  · exact fun _ h _ => hc.backslash h
  · exact fun _ _ h _ => hc.backslash h

theorem wellEscaped_append (hs : ∀ c ∈ s, IsPlain c) (t : Text) :
    wellEscaped (s ++ t) = wellEscaped t := by
  induction s with
  | nil => rfl
  | cons c s ih =>
    rw [List.cons_append, wellEscaped_plain (hs c List.mem_cons_self),
      ih fun c hc => hs c (List.mem_cons_of_mem _ hc)]

theorem IsString.wellEscaped (hr : IsString raw) : Literal.wellEscaped raw := by
  induction hr with
  | nil => rfl
  | char hc _ ih => rwa [wellEscaped_plain hc]
  | short he _ ih =>
    have hu : ∀ p ∈ shortEscapes, p.1 ≠ 'u' := by decide
    rw [Literal.wellEscaped, shortEscape?_eq he, ih]
    · rfl
    · exact hu _ he
  | unit hn _ ih => rw [Literal.wellEscaped, hn.hexUnit?_append, wellEscaped_append hn.isPlain, ih]; rfl

/-! ### The text of a string -/

theorem StandsFor.isString (h : StandsFor raw t) : IsString raw := by
  induction h with
  | nil => exact .nil
  | char hc _ ih => exact .char hc ih
  | short he _ ih => exact .short he ih
  | unit hn _ _ _ ih => exact .unit hn ih
  | pair hm hn _ _ _ ih => exact .unit hm (.unit hn ih)

theorem standsFor_self (h : t.all fun c => decide (IsPlain c)) : StandsFor t t := by
  induction t with
  | nil => exact .nil
  | cons c t ih =>
    rw [List.all_cons, Bool.and_eq_true, decide_eq_true_eq] at h
    exact .char h.1 (ih h.2)

theorem decode?_unit (hn : IsUnit h n) (hhigh : ¬ IsHigh n) (hlow : ¬ IsLow n) (raw : Text) :
    decode? ('\\' :: 'u' :: (h ++ raw)) = (decode? raw).map (Char.ofNat n :: ·) := by
  unfold IsHigh at hhigh
  unfold IsLow at hlow
  rw [decode?, if_pos rfl, Literal.readEscape?, hn.hexUnit?_append raw]
  simp only [Option.bind_eq_bind, Option.bind_some]
  rw [if_neg (by simpa using hhigh), if_neg (by simpa using hlow), Option.bind_some]
  dsimp only
  rw [List.drop_succ_cons, hn.drop_append]

theorem decode?_pair {h' : Text} {m : Nat} (hm : IsUnit h m) (hn : IsUnit h' n) (hhigh : IsHigh m)
    (hlow : IsLow n) (raw : Text) :
    decode? ('\\' :: 'u' :: (h ++ '\\' :: 'u' :: (h' ++ raw))) =
      (decode? raw).map (Char.ofNat (0x10000 + (m - 0xD800) * 0x400 + (n - 0xDC00)) :: ·) := by
  have hboth : ('u' :: (h ++ '\\' :: 'u' :: (h' ++ raw))).drop 11 = raw := by
    rw [show 11 = 5 + 6 from rfl, ← List.drop_drop, List.drop_succ_cons, hm.drop_append,
      List.drop_succ_cons, List.drop_succ_cons, hn.drop_append]
  unfold IsHigh at hhigh
  unfold IsLow at hlow
  rw [decode?, if_pos rfl, Literal.readEscape?, hm.hexUnit?_append]
  simp only [Option.bind_eq_bind, Option.bind_some]
  rw [if_pos (by simpa using hhigh), hm.drop_append]
  simp only [hn.hexUnit?_append, Option.bind_some]
  rw [if_pos (by simpa using hlow), Option.bind_some]
  dsimp only
  rw [hboth]

/-- **A string is read as the text that it stands for.** -/
theorem StandsFor.decode?_eq (h : StandsFor raw t) : decode? raw = some t := by
  induction h with
  | nil => rw [decode?]
  | char hc _ ih => rw [Literal.decode?_cons hc.backslash, ih]; rfl
  | short he _ ih => rw [Literal.decode?_short (shortEscape?_eq he), ih]; rfl
  | unit hn hhigh hlow _ ih => rw [decode?_unit hn hhigh hlow, ih]; rfl
  | pair hm hn hhigh hlow _ ih => rw [decode?_pair hm hn hhigh hlow, ih]; rfl

/-! ### Numbers -/

theorem IsDigits.span (ht : IsDigits t) (hu : ∀ c ∈ u.head?, ¬ c.isDigit) :
    (t ++ u).takeWhile Char.isDigit = t ∧ (t ++ u).dropWhile Char.isDigit = u :=
  Text.span_stop ht.digits hu

theorem IsWhole.isDigits (hw : IsWhole whole) : IsDigits whole := by
  cases hw with
  | zero => exact ⟨by decide, List.forall_mem_singleton.mpr (by decide)⟩
  | digits hc _ ht => exact ⟨List.cons_ne_nil _ _, List.forall_mem_cons.mpr ⟨hc, ht⟩⟩

theorem IsDigits.head?_ne (ht : IsDigits t) (hc : ¬ c.isDigit) (u : Text) :
    (t ++ u).head? ≠ some c := by
  obtain ⟨d, t, rfl⟩ := List.exists_cons_of_ne_nil ht.ne_nil
  intro h
  obtain rfl : d = c := by simpa using h
  exact hc (ht.digits d List.mem_cons_self)

theorem IsExponent.isExponent (he : IsExponent exponent) : Token.isExponent exponent := by
  cases he with
  | absent => rfl
  | @present e sign t he hs ht =>
    have hdigits : (if (sign ++ t).head? = some '+' ∨ (sign ++ t).head? = some '-' then
        (sign ++ t).tail else sign ++ t) = t := by
      rcases hs with rfl | rfl | rfl
      · have hplus := ht.head?_ne (c := '+') (by decide) []
        have hminus := ht.head?_ne (c := '-') (by decide) []
        rw [List.append_nil] at hplus hminus
        exact if_neg (not_or.mpr ⟨hplus, hminus⟩)
      · exact if_pos (Or.inl rfl)
      · exact if_pos (Or.inr rfl)
    have hletter : (e == 'e' || e == 'E') = true := by simpa using he
    have hempty : t.isEmpty = false := by simpa using ht.ne_nil
    have hall : t.all Char.isDigit = true := List.all_eq_true.mpr ht.digits
    rw [Token.isExponent, hdigits, hletter, hempty, hall]
    rfl

/-- An exponent does not start with a digit. -/
theorem IsExponent.head?_isDigit (he : IsExponent exponent) : ∀ c ∈ exponent.head?, ¬ c.isDigit := by
  cases he with
  | absent => simp
  | present he =>
    intro c hc
    obtain rfl := Option.some.inj hc
    rcases he with rfl | rfl <;> decide

theorem IsFraction.isFraction (hf : IsFraction fraction) (he : IsExponent exponent) :
    Token.isFraction (fraction ++ exponent) := by
  cases hf with
  | absent =>
    rw [List.nil_append, Token.isFraction, he.isExponent]
    rintro t rfl
    cases he with
    | present he => rcases he with h | h <;> exact absurd h (by decide)
  | @present t ht =>
    obtain ⟨htake, hdrop⟩ := ht.span he.head?_isDigit
    have hempty : t.isEmpty = false := by simpa using ht.ne_nil
    rw [List.cons_append, Token.isFraction, htake, hdrop, hempty, he.isExponent]
    rfl

/-- **A number is accepted as one.** -/
theorem IsNumber.isNumber (h : IsNumber s) : Token.isNumber s := by
  obtain @⟨sign, whole, fraction, exponent, hs, hw, hf, he⟩ := h
  have hbare : (if (sign ++ (whole ++ (fraction ++ exponent))).head? = some '-' then
      (sign ++ (whole ++ (fraction ++ exponent))).tail
      else sign ++ (whole ++ (fraction ++ exponent))) = whole ++ (fraction ++ exponent) := by
    rcases hs with rfl | rfl
    · exact if_neg (hw.isDigits.head?_ne (by decide) _)
    · exact if_pos rfl
  have hhead : ∀ c ∈ (fraction ++ exponent).head?, ¬ c.isDigit := by
    cases hf with
    | absent => exact he.head?_isDigit
    | present => simp
  obtain ⟨htake, hdrop⟩ := hw.isDigits.span hhead
  have hempty : whole.isEmpty = false := by simpa using hw.isDigits.ne_nil
  have hzero : (whole.length == 1 || whole.head? != some '0') = true := by
    cases hw with
    | zero => rfl
    | digits _ hz => simp [hz]
  rw [Token.isNumber, hbare, htake, hdrop, hempty, hzero, hf.isFraction he]
  rfl

theorem isNumberChar_of_isDigit (hc : c.isDigit) : isNumberChar c := by
  simp [isNumberChar, hc]

/-- A number holds nothing but the characters of numbers. -/
theorem IsNumber.isNumberChar (h : IsNumber s) : ∀ c ∈ s, isNumberChar c := by
  have hdigits : ∀ {t}, IsDigits t → ∀ c ∈ t, Token.isNumberChar c :=
    fun ht c hc => isNumberChar_of_isDigit (ht.digits c hc)
  obtain @⟨sign, whole, fraction, exponent, hs, hw, hf, he⟩ := h
  refine List.forall_mem_append.mpr ⟨?_, List.forall_mem_append.mpr ⟨hdigits hw.isDigits,
    List.forall_mem_append.mpr ⟨?_, ?_⟩⟩⟩
  · rcases hs with rfl | rfl <;> simp [Token.isNumberChar]
  · cases hf with
    | absent => simp
    | present ht => exact List.forall_mem_cons.mpr ⟨by decide, hdigits ht⟩
  · cases he with
    | absent => simp
    | present he hs ht =>
      refine List.forall_mem_cons.mpr ⟨?_, List.forall_mem_append.mpr ⟨?_, hdigits ht⟩⟩
      · rcases he with rfl | rfl <;> decide
      · rcases hs with rfl | rfl | rfl <;> simp [Token.isNumberChar]

end Unbundled.Json
