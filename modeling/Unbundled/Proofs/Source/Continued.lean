import Unbundled.Proofs.Source.Fronts

/-! # Texts that go on in two ways

A lexeme that ends within `u` when `u` goes on with `t` need not be the same lexeme when `u` goes on
with another text: a quote that is not closed before the end of its line stands for itself, and the
other text may close it. `Continues` says which texts may take each other's place: whatever is not
closed with the one is not closed with the other. Then a lexeme that ends within `u` is the same for
both (`Lexeme.read_continues`), comments, regular expressions and nested templates included.

The end of a text may always take the place of a text (`continues_nil`). -/

namespace Unbundled.Source

variable {P : Text → Prop} {behind s t u v : Text} {c q x : Char} {n : Nat}

/-! ### What is not closed

Whether a string or a regular expression is not closed with another text depends on two places: where
the other text starts, and where its first character is escaped. -/

/-- What ends the rest of a text ends the text. -/
theorem getLast?_cons_of {x : Char} (h : u.getLast? = some x) : (c :: u).getLast? = some x := by
  rw [List.getLast?_cons, h, Option.getD_some]

theorem stringEnd?_eq_none_of {t' : Text}
    (h₀ : stringEnd? q t = none → stringEnd? q t' = none)
    (h₁ : u.getLast? = some '\\' →
      stringEnd? q ('\\' :: t) = none → stringEnd? q ('\\' :: t') = none)
    (h : stringEnd? q (u ++ t) = none) : stringEnd? q (u ++ t') = none := by
  fun_induction stringEnd? q u with
  | case1 c u ih =>
    rw [List.cons_append, List.cons_append, stringEnd?_escape, Option.map_eq_none_iff] at h ⊢
    exact ih (fun hu => h₁ (getLast?_cons_of (getLast?_cons_of hu))) h
  | case2 u _ => rw [List.cons_append, stringEnd?_cons (by decide), if_pos rfl]
  | case3 u hne hn =>
    by_cases hb : q = '\\'
    · cases u with
      | nil => exact hb ▸ h₁ (by rw [hb]; rfl) (hb ▸ h)
      | cons d u => exact absurd rfl (hne d u hb)
    · rw [List.cons_append, stringEnd?_cons hb, if_neg hn, if_pos rfl] at h
      exact absurd h (by simp)
  | case4 c u hne hn hc ih =>
    by_cases hb : c = '\\'
    · cases u with
      | nil => exact hb ▸ h₁ (by rw [hb]; rfl) (hb ▸ h)
      | cons d u => exact absurd rfl (hne d u hb)
    · rw [List.cons_append, stringEnd?_cons hb, if_neg hn, if_neg hc, Option.map_eq_none_iff] at h ⊢
      exact ih (fun hu => h₁ (getLast?_cons_of hu)) h
  | case5 => exact h₀ h

theorem regexEnd?_eq_none_of {t' : Text} {inBrackets : Bool}
    (h₀ : ∀ k, regexEnd? k t = none → regexEnd? k t' = none)
    (h₁ : u.getLast? = some '\\' →
      ∀ k, regexEnd? k ('\\' :: t) = none → regexEnd? k ('\\' :: t') = none)
    (h : regexEnd? inBrackets (u ++ t) = none) : regexEnd? inBrackets (u ++ t') = none := by
  fun_induction regexEnd? inBrackets u with
  | case1 inBrackets c u ih =>
    rw [List.cons_append, List.cons_append, regexEnd?_escape, Option.map_eq_none_iff] at h ⊢
    exact ih (fun hu => h₁ (getLast?_cons_of (getLast?_cons_of hu))) h
  | case2 inBrackets u _ => rw [List.cons_append, regexEnd?_cons (by decide), if_pos rfl]
  | case3 inBrackets u _ _ ih =>
    rw [List.cons_append, regexEnd?_cons (by decide), if_neg (by decide), if_pos rfl,
      Option.map_eq_none_iff] at h ⊢
    exact ih (fun hu => h₁ (getLast?_cons_of hu)) h
  | case4 inBrackets u _ _ _ ih =>
    rw [List.cons_append, regexEnd?_cons (by decide), if_neg (by decide), if_neg (by decide),
      if_pos rfl, Option.map_eq_none_iff] at h ⊢
    exact ih (fun hu => h₁ (getLast?_cons_of hu)) h
  | case5 inBrackets c u hne hn k1 k2 hs =>
    have hb : c ≠ '\\' := by
      rintro rfl
      exact absurd hs (by simp)
    rw [List.cons_append, regexEnd?_cons hb, if_neg hn, if_neg k1, if_neg k2, if_pos hs] at h
    exact absurd h (by simp)
  | case6 inBrackets c u hne hn k1 k2 hs ih =>
    by_cases hb : c = '\\'
    · cases u with
      | nil => exact hb ▸ h₁ (by rw [hb]; rfl) inBrackets (hb ▸ h)
      | cons d u => exact absurd rfl (hne d u hb)
    · rw [List.cons_append, regexEnd?_cons hb, if_neg hn, if_neg k1, if_neg k2, if_neg hs,
        Option.map_eq_none_iff] at h ⊢
      exact ih (fun hu => h₁ (getLast?_cons_of hu)) h
  | case7 inBrackets => exact h₀ inBrackets h

/-! ### Continuations -/

/-- Behind every text of the form `P`, what is not closed when `t` follows is not closed when `t'`
follows. -/
structure Continues (P : Text → Prop) (t t' : Text) : Prop where
  nil : t = [] → t' = []
  string {q : Char} {u : Text} : P u → isQuote q → stringEnd? q (u ++ t) = none →
    stringEnd? q (u ++ t') = none
  regex {inBrackets : Bool} {u : Text} : P u → regexEnd? inBrackets (u ++ t) = none →
    regexEnd? inBrackets (u ++ t') = none
  word {u : Text} : P u → wordEnd (u ++ t) ≤ u.length → wordEnd (u ++ t') = wordEnd (u ++ t)
  comment {u : Text} : P ('/' :: u) → commentEnd? (u ++ t) = none → commentEnd? (u ++ t') = none
  brace {u : Text} : P ('$' :: u) → (u ++ t).head? ≠ some '\x7b' → (u ++ t').head? ≠ some '\x7b'

/-- The form is one of lines: what is left of a text has it again. -/
def Tailed (P : Text → Prop) : Prop := ∀ x u, P (x :: u) → P u

theorem tailed_true : Tailed fun _ => True := fun _ _ _ => trivial

theorem Tailed.drop (hP : Tailed P) (hu : P u) (n : Nat) : P (u.drop n) := by
  induction n generalizing u with
  | zero => exact hu
  | succ n ih =>
    cases u with
    | nil => exact hu
    | cons x u => exact ih (hP x u hu)

/-- Blanks and comments that end in the front do so whatever follows, if the comments do. -/
theorem triviaEnd_front {t' : Text} (hP : Tailed P)
    (hcomment : ∀ {u : Text}, P ('/' :: u) → (∀ n ∈ commentEnd? (u ++ t), n ≤ u.length) →
      commentEnd? (u ++ t') = commentEnd? (u ++ t))
    (hzero : triviaEnd t = 0 → triviaEnd t' = 0) (hu : P u) (hle : triviaEnd (u ++ t) ≤ u.length) :
    triviaEnd (u ++ t') = triviaEnd (u ++ t) := by
  generalize hl : u.length = l at hle
  induction l using Nat.strongRecOn generalizing u with
  | ind l ih =>
    cases u with
    | nil =>
      subst hl
      have h0 : triviaEnd t = 0 := Nat.le_zero.mp hle
      exact (hzero h0).trans h0.symm
    | cons x u =>
      have hu' := hP x u hu
      rw [List.length_cons] at hl
      rw [List.cons_append, triviaEnd] at hle
      rw [List.cons_append, List.cons_append, triviaEnd, triviaEnd]
      by_cases hx : isSpace x
      · rw [if_pos hx] at hle
        rw [if_pos hx, if_pos hx, ih _ (by omega) hu' rfl (by omega)]
      rw [if_neg hx] at hle
      rw [if_neg hx, if_neg hx]
      by_cases hs : x = '/'
      · subst hs
        rw [if_pos rfl] at hle
        have hn : ∀ n ∈ commentEnd? (u ++ t), n ≤ u.length := by
          intro n hn
          rw [hn] at hle
          dsimp only at hle
          omega
        rw [if_pos rfl, if_pos rfl, hcomment hu hn]
        cases hc : commentEnd? (u ++ t) with
        | none => rfl
        | some n =>
          have hnu := hn n hc
          rw [hc] at hle
          dsimp only at hle ⊢
          rw [List.drop_append_of_le_length hnu] at hle
          rw [List.drop_append_of_le_length hnu, List.drop_append_of_le_length hnu,
            ih _ (by rw [List.length_drop]; omega) (hP.drop hu' n) rfl
              (by rw [List.length_drop]; omega)]
      · rw [if_neg hs, if_neg hs]

theorem continues_nil (t : Text) : Continues (fun _ => True) t [] where
  nil _ := rfl
  string {q u} _ hq h := by
    rw [List.append_nil]
    exact eq_none_of_front (stringEnd?_front hq u t) h
  regex {k u} _ h := by
    rw [List.append_nil]
    exact eq_none_of_front (regexEnd?_front k u t) h
  word {u} _ h := by
    rw [List.append_nil]
    exact wordEnd_front h
  comment {u} _ h := by
    rw [List.append_nil]
    cases u with
    | nil => rfl
    | cons c u => exact commentEnd?_eq_none_iff.mpr (commentEnd?_eq_none_iff.mp h)
  brace {u} _ h := by
    rw [List.append_nil]
    cases u with
    | nil => simp
    | cons c u => exact h

section

variable {t' : Text} (hP : Tailed P) (h : Continues P t t')
include h

theorem commentEnd?_continues (hu : P ('/' :: u)) (hn : ∀ n ∈ commentEnd? (u ++ t), n ≤ u.length) :
    commentEnd? (u ++ t') = commentEnd? (u ++ t) := commentEnd?_front h.nil (h.comment hu) hn

include hP

theorem Continues.steady (hu : P (x :: u)) (behind : Text) : Steady t t' behind x u where
  nil := h.nil
  comment hx := h.comment (hx ▸ hu)
  string hq := h.string (hP x u hu) hq
  regex _ _ _ := h.regex (hP x u hu)
  word n := h.word (hP.drop (hP x u hu) n)

theorem Nesting.step_continues (place : Nesting) (hu : P (x :: u))
    (hle : (place.step behind x (u ++ t)).2 ≤ u.length) :
    place.step behind x (u ++ t') = place.step behind x (u ++ t) :=
  Nesting.step_front (fun hx => h.brace (hx ▸ hu))
    (fun _ _ _ => (h.steady hP hu behind).readFlat_eq) hle

/-- A template literal that is closed within the front. -/
theorem templateEnd?_continues (place : Nesting) (hu : P u)
    (hn : templateEnd? place behind (u ++ t) = some n) (hle : n ≤ u.length) :
    templateEnd? place behind (u ++ t') = some n :=
  templateEnd?_front (I := fun _ _ u => P u)
    (fun place _ x u hu hle => ⟨Nesting.step_continues hP h place hu hle,
      fun _ k _ => hP.drop (hP x u hu) k⟩) hu hn hle

/-- **A lexeme that ends within `u` is the same for both continuations.** -/
theorem Lexeme.read_continues (hu : P (x :: u))
    (hle : (read behind x (u ++ t)).size ≤ u.length) :
    read behind x (u ++ t') = read behind x (u ++ t) :=
  Lexeme.read_front h.nil (fun _ _ => templateEnd?_continues hP h (.text []) (hP x u hu))
    (h.steady hP hu behind).readFlat_eq hle

end

end Unbundled.Source
