import Unbundled.Proofs.Source.Continued

/-! # Texts that may replace one another

Two continuations of a text are treated in the way of `Continues`: a newline may be put at the end
(`continues_newline`), and a text of characters that open and close nothing may be put in the place of
another one (`continues_inert`). -/

namespace Unbundled.Source

variable {q : Char} {r u v w : Text}

/-! ### A newline at the end -/

theorem wordEnd_noWord {t : Text} (ht : NoWord t) (u : Text) : wordEnd (u ++ t) = wordEnd u := by
  have hnone : t.takeWhile isWordChar = [] := by
    cases t with
    | nil => rfl
    | cons x t => rw [List.takeWhile_cons, if_neg (ht x rfl)]
  unfold wordEnd
  rw [List.takeWhile_append, hnone, List.append_nil]
  split
  · rename_i hu
    rw [hu]
  · rfl

/-- **A newline may be put at the end.** -/
theorem continues_newline (hv : v ≠ []) : Continues (fun _ => True) v (v ++ ['\n']) where
  nil h := absurd h hv
  string {q u} _ _ h := by
    rw [← List.append_assoc]
    rw [← List.append_nil (u ++ v)] at h
    exact stringEnd?_eq_none_of (fun _ => rfl) (fun _ _ => rfl) h
  regex {k u} _ h := by
    rw [← List.append_assoc]
    rw [← List.append_nil (u ++ v)] at h
    exact regexEnd?_eq_none_of (fun _ _ => rfl) (fun _ _ _ => rfl) h
  word {u} _ _ := by
    rw [← List.append_assoc, wordEnd_noWord (t := ['\n']) (noWord_cons (by decide) []) (u ++ v)]
  comment {u} _ h := by
    obtain ⟨c, w, hc⟩ := List.exists_cons_of_ne_nil (List.append_ne_nil_of_right_ne_nil u hv)
    rw [hc] at h
    rw [← List.append_assoc, hc]
    exact commentEnd?_eq_none_iff.mpr (commentEnd?_eq_none_iff.mp h)
  brace {u} _ h := by
    obtain ⟨c, w, hc⟩ := List.exists_cons_of_ne_nil (List.append_ne_nil_of_right_ne_nil u hv)
    rw [hc] at h
    rw [← List.append_assoc, hc]
    exact h

/-! ### Characters that open and close nothing -/

/-- Whether a character means nothing to a string and to a regular expression. -/
def isInert (x : Char) : Bool := x != '\n' && x != '\\' && !isQuote x && !"[]/".toList.contains x

theorem isInert_iff {x : Char} : isInert x ↔
    x ≠ '\n' ∧ x ≠ '\\' ∧ ¬ isQuote x ∧ x ≠ '[' ∧ x ≠ ']' ∧ x ≠ '/' := by
  simp [isInert, and_assoc]

theorem isInert_spaces (n : Nat) : ∀ c ∈ List.replicate n ' ', isInert c := by
  intro c hc
  rw [List.eq_of_mem_replicate hc]
  rfl

theorem stringEnd?_inert (hq : isQuote q) (hw : ∀ x ∈ w, isInert x) (r : Text) :
    stringEnd? q (w ++ r) = (stringEnd? q r).map (· + w.length) := by
  induction w with
  | nil => simp
  | cons x w ih =>
    obtain ⟨hn, hb, hx, -⟩ := isInert_iff.mp (hw x List.mem_cons_self)
    have hne : x ≠ q := by
      rintro rfl
      exact hx hq
    rw [List.cons_append, stringEnd?_cons hb, if_neg hn, if_neg hne,
      ih fun y hy => hw y (List.mem_cons_of_mem x hy), Option.map_map]
    rfl

theorem regexEnd?_inert (inBrackets : Bool) (hw : ∀ x ∈ w, isInert x) (r : Text) :
    regexEnd? inBrackets (w ++ r) = (regexEnd? inBrackets r).map (· + w.length) := by
  induction w with
  | nil => simp
  | cons x w ih =>
    obtain ⟨hn, hb, -, h1, h2, h3⟩ := isInert_iff.mp (hw x List.mem_cons_self)
    rw [List.cons_append, regexEnd?_cons hb, if_neg hn, if_neg h1, if_neg h2, if_neg (by simp [h3]),
      ih fun y hy => hw y (List.mem_cons_of_mem x hy), Option.map_map]
    rfl

variable {e f : Char} {es fs : Text}

theorem stringEnd?_replace (hq : isQuote q) (he : ∀ x ∈ e :: es, isInert x)
    (hf : ∀ x ∈ f :: fs, isInert x) (h : stringEnd? q (u ++ (e :: es ++ r)) = none) :
    stringEnd? q (u ++ (f :: fs ++ r)) = none := by
  have hes : ∀ x ∈ es, isInert x := fun x hx => he x (List.mem_cons_of_mem e hx)
  have hfs : ∀ x ∈ fs, isInert x := fun x hx => hf x (List.mem_cons_of_mem f hx)
  refine stringEnd?_eq_none_of (fun h => ?_) (fun _ h => ?_) h
  · rw [stringEnd?_inert hq he, Option.map_eq_none_iff] at h
    rw [stringEnd?_inert hq hf, h]
    rfl
  · rw [List.cons_append, stringEnd?_escape, stringEnd?_inert hq hes, Option.map_map,
      Option.map_eq_none_iff] at h
    rw [List.cons_append, stringEnd?_escape, stringEnd?_inert hq hfs, h]
    rfl

theorem regexEnd?_replace {inBrackets : Bool} (he : ∀ x ∈ e :: es, isInert x)
    (hf : ∀ x ∈ f :: fs, isInert x) (h : regexEnd? inBrackets (u ++ (e :: es ++ r)) = none) :
    regexEnd? inBrackets (u ++ (f :: fs ++ r)) = none := by
  have hes : ∀ x ∈ es, isInert x := fun x hx => he x (List.mem_cons_of_mem e hx)
  have hfs : ∀ x ∈ fs, isInert x := fun x hx => hf x (List.mem_cons_of_mem f hx)
  refine regexEnd?_eq_none_of (fun k h => ?_) (fun _ k h => ?_) h
  · rw [regexEnd?_inert k he, Option.map_eq_none_iff] at h
    rw [regexEnd?_inert k hf, h]
    rfl
  · rw [List.cons_append, regexEnd?_escape, regexEnd?_inert k hes, Option.map_map,
      Option.map_eq_none_iff] at h
    rw [List.cons_append, regexEnd?_escape, regexEnd?_inert k hfs, h]
    rfl

/-- **Words and blanks may be put in the place of others**: a text that starts with a letter may be
replaced by one that starts with a character that completes no mark. -/
theorem continues_inert (he : ∀ x ∈ e :: es, isInert x) (hf : ∀ x ∈ f :: fs, isInert x)
    (hword : isWordChar e) (hfirst : f ∉ "/*\x7b".toList) (r : Text) :
    Continues (fun _ => True) (e :: es ++ r) (f :: fs ++ r) where
  nil h := absurd h (by simp)
  string _ hq h := stringEnd?_replace hq he hf h
  regex _ h := regexEnd?_replace he hf h
  word {u} _ h := by
    have hlt : wordEnd u < u.length := by
      refine Nat.lt_of_le_of_ne (wordEnd_le u) fun hu => ?_
      rw [wordEnd] at hu
      rw [wordEnd, List.takeWhile_append, if_pos hu, List.cons_append, List.takeWhile_cons,
        if_pos hword, List.length_append, List.length_cons] at h
      omega
    rw [wordEnd_append_of_lt hlt, wordEnd_append_of_lt hlt]
  comment {u} _ h := by
    cases u with
    | nil =>
      refine commentEnd?_eq_none_iff.mpr ⟨?_, ?_⟩ <;>
        · rintro rfl
          exact hfirst (by decide)
    | cons c u => exact commentEnd?_eq_none_iff.mpr (commentEnd?_eq_none_iff.mp h)
  brace {u} _ h := by
    cases u with
    | nil =>
      intro hn
      obtain rfl := Option.some.inj hn
      exact hfirst (by decide)
    | cons c u => exact h

end Unbundled.Source
