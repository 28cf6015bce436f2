import Unbundled.Proofs.Source.Fillers
import Unbundled.Proofs.Source.Replaced

/-! # Blanks in the place of a comment

`blank` overwrites a text with as many spaces as it has bytes and keeps its line ends. Behind a text
that does not end with a backslash, a comment and its blanks are continued alike: what is not closed
before the one is not closed before the other (`continues_blank`). -/

namespace Unbundled.Source

variable {b p q r s t u v w : Text} {x : Char} {i : Bool}

/-! ### Blanks -/

/-- As many spaces as the text has bytes, and its newlines. -/
def blank (t : Text) : Text :=
  t.flatMap fun c => if c = '\n' then ['\n'] else List.replicate c.utf8Size ' '

theorem blank_append (s t : Text) : blank (s ++ t) = blank s ++ blank t := List.flatMap_append

theorem blank_cons (h : x ≠ '\n') (t : Text) :
    blank (x :: t) = List.replicate x.utf8Size ' ' ++ blank t := by
  rw [blank, List.flatMap_cons, if_neg h]
  rfl

theorem blank_newline (t : Text) : blank ('\n' :: t) = '\n' :: blank t := rfl

theorem mem_blank (h : x ∈ blank t) : x = ' ' ∨ (x = '\n' ∧ '\n' ∈ t) := by
  obtain ⟨c, hc, hx⟩ := List.mem_flatMap.mp h
  split at hx
  · rename_i hn
    exact Or.inr ⟨List.mem_singleton.mp hx, hn ▸ hc⟩
  · exact Or.inl (List.eq_of_mem_replicate hx)

theorem isSpace_of_mem_blank (h : x ∈ blank t) : isSpace x := by
  rcases mem_blank h with rfl | ⟨rfl, -⟩ <;> rfl

theorem bytes_blank (t : Text) : Text.bytes (blank t) = Text.bytes t := by
  induction t with
  | nil => rfl
  | cons x t ih =>
    have hspaces (n : Nat) : Text.bytes (List.replicate n ' ') = n := by
      induction n with
      | zero => rfl
      | succ n ihn =>
        rw [List.replicate_succ, Text.bytes_cons, ihn, Nat.add_comm]
        rfl
    by_cases hx : x = '\n'
    · subst hx
      rw [blank_newline, Text.bytes_cons, Text.bytes_cons, ih]
    · rw [blank_cons hx, Text.bytes_append, hspaces, ih, Text.bytes_cons]

/-- The blanks of a character that ends no line mean nothing to a string or a regular expression. -/
theorem isInert_of_mem_blank (hn : '\n' ∉ t) (h : x ∈ blank t) : isInert x := by
  rcases mem_blank h with rfl | ⟨-, hm⟩
  · rfl
  · exact absurd hm hn

theorem blank_ne_nil (h : t ≠ []) : blank t ≠ [] := by
  obtain ⟨x, t, rfl⟩ := List.exists_cons_of_ne_nil h
  intro hb
  have hbytes := bytes_blank (x :: t)
  rw [hb, Text.bytes_nil, Text.bytes_cons] at hbytes
  have := Char.utf8Size_pos x
  omega

/-! ### Comments -/

theorem lineEnd?_eq_none (hs : '\n' ∉ s) : lineEnd? s = none := by
  induction s with
  | nil => rfl
  | cons c s ih =>
    rw [List.mem_cons, not_or] at hs
    rw [lineEnd?, if_neg (Ne.symm hs.1), ih hs.2]
    rfl

/-- A comment that is closed. The newline behind a line comment is no part of it. -/
inductive Comment
  | line (s : Text) (inline : '\n' ∉ s)
  | block (s : Text) (inside : ¬ ['*', '/'] <:+: s)

namespace Comment

def text : Comment → Text
  | line s _ => '/' :: '/' :: s
  | block s _ => '/' :: '*' :: (s ++ ['*', '/'])

/-- What may follow a comment: a line comment runs to the end of its line. -/
def Ends : Comment → Text → Prop
  | line _ _, r => ∀ x ∈ r.head?, x = '\n'
  | block _ _, _ => True

theorem text_ne_nil (k : Comment) : k.text ≠ [] := by cases k <;> exact List.cons_ne_nil _ _

theorem exists_cons (k : Comment) : ∃ y v, k.text = '/' :: y :: v ∧ (y = '/' ∨ y = '*') := by
  cases k with
  | line s _ => exact ⟨'/', s, rfl, Or.inl rfl⟩
  | block s _ => exact ⟨'*', s ++ ['*', '/'], rfl, Or.inr rfl⟩

/-- The blanks of a comment open with a space. -/
theorem exists_blank (k : Comment) : ∃ v, blank k.text = ' ' :: v := by
  obtain ⟨y, v, hk, -⟩ := k.exists_cons
  exact ⟨blank (y :: v), by rw [hk, blank_cons (by decide)]; rfl⟩

/-- **A comment is passed as a whole.** -/
theorem triviaEnd_text (k : Comment) (hr : k.Ends r) :
    triviaEnd (k.text ++ r) = k.text.length + triviaEnd r := by
  cases k with
  | block s hs =>
    have hf : IsFiller ('/' :: '*' :: (s ++ ['*', '/'])) := .block hs .nil
    exact triviaEnd_filler hf r
  | line s hs =>
    cases r with
    | nil =>
      have hcomment : commentEnd? ('/' :: s) = some (1 + s.length) := by
        rw [commentEnd?, lineEnd?_eq_none hs, Option.getD_none]
      rw [List.append_nil, text, triviaEnd_comment hcomment]
      have hlength : ('/' :: s).length ≤ 1 + s.length := by
        rw [List.length_cons]
        omega
      simp only [List.drop_eq_nil_of_le hlength, List.length_cons]
      omega
    | cons x r =>
      obtain rfl : x = '\n' := hr x rfl
      have hf : IsFiller ('/' :: '/' :: (s ++ ['\n'])) := .line hs .nil
      have hsplit : (line s hs).text ++ '\n' :: r = '/' :: '/' :: (s ++ ['\n']) ++ r := by simp [text]
      rw [hsplit, triviaEnd_filler hf, triviaEnd, if_pos (by decide)]
      simp only [text, List.length_cons, List.length_append, List.length_nil]
      omega

end Comment

/-! ### What is not closed before a comment -/

theorem stringEnd?_eq_none_of_newline {c : Char} (hr : ∀ x ∈ r.head?, x = '\n') :
    stringEnd? c r = none := by
  cases r with
  | nil => rfl
  | cons x r =>
    obtain rfl : x = '\n' := hr x rfl
    rw [stringEnd?_cons (by decide), if_pos rfl]

theorem regexEnd?_eq_none_of_newline (hr : ∀ x ∈ r.head?, x = '\n') : regexEnd? i r = none := by
  cases r with
  | nil => rfl
  | cons x r =>
    obtain rfl : x = '\n' := hr x rfl
    rw [regexEnd?_cons (by decide), if_pos rfl]

/-- Blanks more leave a string open. -/
theorem stringEnd?_blank_cons {c : Char} (hc : isQuote c) (h : stringEnd? c (blank v ++ r) = none) :
    stringEnd? c (blank (x :: v) ++ r) = none := by
  by_cases hx : x = '\n'
  · subst hx
    exact stringEnd?_eq_none_of_newline (by simp [blank_newline])
  · rw [blank_cons hx, List.append_assoc, stringEnd?_inert hc (isInert_spaces _), h]
    rfl

theorem regexEnd?_blank_cons (h : regexEnd? i (blank v ++ r) = none) :
    regexEnd? i (blank (x :: v) ++ r) = none := by
  by_cases hx : x = '\n'
  · subst hx
    exact regexEnd?_eq_none_of_newline (by simp [blank_newline])
  · rw [blank_cons hx, List.append_assoc, regexEnd?_inert i (isInert_spaces _), h]
    rfl

/-- A string that is open before a slash is open after blanks. -/
theorem stringEnd?_blank {c : Char} (hc : isQuote c) (hv : v.getLast? ≠ some '\\')
    (h : stringEnd? c (v ++ '/' :: r) = none) : stringEnd? c (blank v ++ ' ' :: r) = none := by
  fun_induction stringEnd? c v with
  | case1 d v ih =>
    rw [List.cons_append, List.cons_append, stringEnd?_escape, Option.map_eq_none_iff] at h
    exact stringEnd?_blank_cons hc (stringEnd?_blank_cons hc
      (ih (fun h => hv (getLast?_cons_of (getLast?_cons_of h))) h))
  | case2 v _ => exact stringEnd?_eq_none_of_newline (by simp [blank_newline])
  | case3 v hne hn =>
    have hb : c ≠ '\\' := by
      rintro rfl
      exact absurd hc (by decide)
    rw [List.cons_append, stringEnd?_cons hb, if_neg hn, if_pos rfl] at h
    exact absurd h (by simp)
  | case4 d v hne hn hd ih =>
    have hb : d ≠ '\\' := by
      rintro rfl
      cases v with
      | nil => exact hv rfl
      | cons e v => exact hne e v rfl rfl
    rw [List.cons_append, stringEnd?_cons hb, if_neg hn, if_neg hd, Option.map_eq_none_iff] at h
    exact stringEnd?_blank_cons hc (ih (fun h => hv (getLast?_cons_of h)) h)
  | case5 =>
    have h1 : '/' ≠ c := by
      rintro rfl
      exact absurd hc (by decide)
    have h2 : ' ' ≠ c := by
      rintro rfl
      exact absurd hc (by decide)
    rw [List.nil_append, stringEnd?_cons (by decide), if_neg (by decide), if_neg h1,
      Option.map_eq_none_iff] at h
    rw [blank, List.flatMap_nil, List.nil_append, stringEnd?_cons (by decide), if_neg (by decide),
      if_neg h2, h]
    rfl

/-- A regular expression that a slash does not close is inside brackets there. -/
theorem regexEnd?_blank (hv : v.getLast? ≠ some '\\') (h : regexEnd? i (v ++ '/' :: r) = none) :
    regexEnd? true (blank v ++ ' ' :: r) = none := by
  fun_induction regexEnd? i v with
  | case1 i d v ih =>
    rw [List.cons_append, List.cons_append, regexEnd?_escape, Option.map_eq_none_iff] at h
    exact regexEnd?_blank_cons (regexEnd?_blank_cons
      (ih (fun h => hv (getLast?_cons_of (getLast?_cons_of h))) h))
  | case2 i v _ => exact regexEnd?_eq_none_of_newline (by simp [blank_newline])
  | case3 i v _ _ ih =>
    rw [List.cons_append, regexEnd?_cons (by decide), if_neg (by decide), if_pos rfl,
      Option.map_eq_none_iff] at h
    exact regexEnd?_blank_cons (ih (fun h => hv (getLast?_cons_of h)) h)
  | case4 i v _ _ _ ih =>
    rw [List.cons_append, regexEnd?_cons (by decide), if_neg (by decide), if_neg (by decide),
      if_pos rfl, Option.map_eq_none_iff] at h
    exact regexEnd?_blank_cons (ih (fun h => hv (getLast?_cons_of h)) h)
  | case5 i d v hne hn h1 h2 hs =>
    have hb : d ≠ '\\' := by
      rintro rfl
      exact absurd hs (by simp)
    rw [List.cons_append, regexEnd?_cons hb, if_neg hn, if_neg h1, if_neg h2, if_pos hs] at h
    exact absurd h (by simp)
  | case6 i d v hne hn h1 h2 hs ih =>
    have hb : d ≠ '\\' := by
      rintro rfl
      cases v with
      | nil => exact hv rfl
      | cons e v => exact hne e v rfl rfl
    rw [List.cons_append, regexEnd?_cons hb, if_neg hn, if_neg h1, if_neg h2, if_neg hs,
      Option.map_eq_none_iff] at h
    exact regexEnd?_blank_cons (ih (fun h => hv (getLast?_cons_of h)) h)
  | case7 i =>
    cases i with
    | false => exact absurd h (by rw [List.nil_append, regexEnd?_cons (by decide)]; simp)
    | true =>
      rw [List.nil_append, regexEnd?_cons (by decide), if_neg (by decide), if_neg (by decide),
        if_neg (by decide), if_neg (by decide), Option.map_eq_none_iff] at h
      rw [blank, List.flatMap_nil, List.nil_append, regexEnd?_cons (by decide), if_neg (by decide),
        if_neg (by decide), if_neg (by decide), if_neg (by decide), h]
      rfl

/-! ### Continuations -/

variable {k : Comment}

/-- A comment ends with its line or with a slash. -/
theorem Comment.cases_end (hr : k.Ends r) : ('\n' ∉ k.text ∧ ∀ x ∈ r.head?, x = '\n') ∨
    ∃ v, k.text = '/' :: v ++ ['/'] ∧ ('/' :: v).getLast? ≠ some '\\' := by
  cases k with
  | line s hs => exact Or.inl ⟨by simpa [text] using hs, hr⟩
  | block s hs =>
    refine Or.inr ⟨'*' :: (s ++ ['*']), by simp [text], ?_⟩
    rw [← List.cons_append, ← List.cons_append, List.getLast?_concat]
    decide

theorem stringEnd?_comment {c : Char} (hc : isQuote c) (hr : k.Ends r)
    (h : stringEnd? c (k.text ++ r) = none) : stringEnd? c (blank k.text ++ r) = none := by
  rcases k.cases_end hr with ⟨hn, hline⟩ | ⟨v, hv, hlast⟩
  · rw [stringEnd?_inert hc fun x => isInert_of_mem_blank hn, stringEnd?_eq_none_of_newline hline]
    rfl
  · rw [hv, List.append_assoc] at h
    rw [hv, blank_append, List.append_assoc]
    exact stringEnd?_blank hc hlast h

theorem regexEnd?_comment (hr : k.Ends r) (h : regexEnd? i (k.text ++ r) = none) :
    regexEnd? i (blank k.text ++ r) = none := by
  rcases k.cases_end hr with ⟨hn, hline⟩ | ⟨v, hv, hlast⟩
  · rw [regexEnd?_inert i fun x => isInert_of_mem_blank hn, regexEnd?_eq_none_of_newline hline]
    rfl
  · rw [hv, List.append_assoc] at h
    cases i with
    | false => exact absurd h (by rw [List.cons_append, regexEnd?_cons (by decide)]; simp)
    | true =>
      rw [hv, blank_append, List.append_assoc]
      exact regexEnd?_blank hlast h

/-- The text does not end with a backslash, so that what follows is not escaped. -/
def Unescaped (u : Text) : Prop := u.getLast? ≠ some '\\'

theorem tailed_unescaped : Tailed Unescaped := fun _ _ hu h => hu (getLast?_cons_of h)

/-- A text that continues what is open in the way of a comment. -/
theorem continues_of_open (hx : ¬ isWordChar x ∧ x ≠ '\x7b')
    (hs : ∀ c, isQuote c → stringEnd? c (k.text ++ r) = none → stringEnd? c (x :: t) = none)
    (hregex : ∀ i, regexEnd? i (k.text ++ r) = none → regexEnd? i (x :: t) = none) :
    Continues Unescaped (k.text ++ r) (x :: t) where
  nil h := absurd h (List.append_ne_nil_of_left_ne_nil k.text_ne_nil r)
  string hu hc h := stringEnd?_eq_none_of (hs _ hc) (fun hl => absurd hl hu) h
  regex hu h := regexEnd?_eq_none_of hregex (fun hl => absurd hl hu) h
  word {u} _ _ := by
    obtain ⟨y, v, hk, -⟩ := k.exists_cons
    rw [hk, List.cons_append, wordEnd_noWord (noWord_cons hx.1 t),
      wordEnd_noWord (noWord_cons (by decide) _)]
  comment {u} _ h := by
    cases u with
    | nil =>
      obtain ⟨y, v, hk, -⟩ := k.exists_cons
      rw [hk] at h
      exact absurd rfl (commentEnd?_eq_none_iff.mp h).1
    | cons c u => exact commentEnd?_eq_none_iff.mpr (commentEnd?_eq_none_iff.mp h)
  brace {u} _ h := by
    cases u with
    | nil => simpa using hx.2
    | cons c u => exact h

/-- **Blanks may be put in the place of a comment** as far as the text before it is concerned. -/
theorem continues_blank (hr : k.Ends r) :
    Continues Unescaped (k.text ++ r) (blank k.text ++ r) := by
  obtain ⟨v, hv⟩ := k.exists_blank
  have h := continues_of_open (k := k) (r := r) (x := ' ') (t := v ++ r) (by decide)
    (fun c hc h => by have := stringEnd?_comment hc hr h; rwa [hv] at this)
    (fun i h => by have := regexEnd?_comment hr h; rwa [hv] at this)
  rwa [hv]

/-- Behind a comment, two new lines continue what is before it as well as anything. -/
theorem continues_newlines (k : Comment) (r t : Text) :
    Continues Unescaped (k.text ++ r) (k.text ++ '\n' :: '\n' :: t) := by
  obtain ⟨y, v, hk, -⟩ := k.exists_cons
  have h := continues_of_open (k := k) (r := r) (x := '/') (t := y :: v ++ '\n' :: '\n' :: t) (by decide)
    (fun c hc h => by
      have hopen : stringEnd? c (k.text ++ '\n' :: '\n' :: t) = none :=
        stringEnd?_eq_none_of (fun _ => rfl) (fun _ _ => rfl) h
      rwa [hk] at hopen)
    (fun i h => by
      have hopen : regexEnd? i (k.text ++ '\n' :: '\n' :: t) = none :=
        regexEnd?_eq_none_of (fun _ _ => rfl) (fun _ _ _ => rfl) h
      rwa [hk] at hopen)
  rwa [hk, List.cons_append] at h ⊢

end Unbundled.Source
