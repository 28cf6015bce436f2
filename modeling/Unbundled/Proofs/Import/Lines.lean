import Unbundled.Proofs.Import.Reading
import Unbundled.Proofs.Source.Lines

/-! # Imports of complete lines

What is written after the complete lines of a source changes nothing about the imports found in these
lines: the imports of a source are the first imports of any source that goes on after its last
newline.

The run on the longer text (`Cursor.extend`) is followed step by step. As long as a reader decides
within the lines, it decides alike (`skipTrivia_extend`, `literal?_extend`). A reader that needs more
than they hold has come to their end, with nothing but blanks and comments to follow (`Idle`); it has
found nothing there, and nothing is left to be found. `Agree` is the alternative of the two, and each
reader has its lemma `agree_…`.

* `agree_step`: a step of the scan.
* `scan_isPrefix`: the imports of a source and those of a longer one. -/

namespace Unbundled

open Source

/-- The same place with more text at the end. -/
def Cursor.extend (t : Text) (c : Cursor) : Cursor := ⟨c.behind, c.ahead ++ t⟩

theorem Cursor.extend_advance {c : Cursor} {n : Nat} (t : Text) (h : n ≤ c.ahead.length) :
    (c.extend t).advance n = (c.advance n).extend t := by
  rw [extend, advance, List.take_append_of_le_length h, List.drop_append_of_le_length h]
  rfl

namespace Import

variable {c d : Cursor} {t : Text}

/-! ### Places in complete lines -/

/-- What is ahead ends with a complete line, or nothing is. -/
def Settled (c : Cursor) : Prop := c.ahead = [] ∨ Ended c.ahead

/-- Only blanks and comments are ahead. -/
def Idle (c : Cursor) : Prop := (skipTrivia c).ahead = []

theorem Settled.onward (h : Settled c) (ho : c.Onward d) : Settled d := by
  obtain ⟨n, rfl⟩ := ho
  rw [Settled, Cursor.ahead_advance]
  rcases h with h | h
  · exact Or.inl (by rw [h, List.drop_nil])
  · exact h.drop n

theorem Settled.passed (h : Settled c) (n : Nat) : Settled ((skipTrivia c).advance n) :=
  (h.onward (onward_skipTrivia c)).onward (Cursor.onward_advance n _)

theorem idle_of_nil (h : c.ahead = []) : Idle c := by
  rw [Idle, skipTrivia, Cursor.advance_of_nil h, h]

theorem scanFrom_idle (h : Idle c) : scanFrom c = [] := by
  rw [← scanFrom_skipTrivia, scanFrom_nil h]

theorem Settled.ended_skipTrivia (h : Settled c) (hi : ¬ Idle c) : Ended (skipTrivia c).ahead := by
  rcases h.onward (onward_skipTrivia c) with h | h
  · exact absurd h hi
  · exact h

theorem skipTrivia_extend (t : Text) (h : Settled c) (hi : ¬ Idle c) :
    skipTrivia (c.extend t) = (skipTrivia c).extend t := by
  have hlt : triviaEnd c.ahead < c.ahead.length := by
    by_contra hle
    exact hi (List.drop_eq_nil_iff.mpr (by omega))
  rcases h with h | h
  · exact absurd (idle_of_nil h) hi
  · rw [skipTrivia, skipTrivia, ← Cursor.extend_advance t hlt.le]
    rcases triviaEnd_ended t h with hs | hs
    · exact congrArg (fun n => (c.extend t).advance n) hs
    · omega

/-- Where a character is ahead, the same one is ahead in the longer text. -/
theorem Settled.extend_cons {x : Char} {u : Text} (t : Text) (h : Settled c)
    (hx : (skipTrivia c).ahead = x :: u) :
    Ended (x :: u) ∧ skipTrivia (c.extend t) = (skipTrivia c).extend t ∧
      (skipTrivia (c.extend t)).ahead = x :: (u ++ t) := by
  have hi : ¬ Idle c := by rw [Idle, hx]; exact List.cons_ne_nil x u
  have hs := skipTrivia_extend t h hi
  exact ⟨hx ▸ h.ended_skipTrivia hi, hs, by rw [hs, Cursor.extend, hx, List.cons_append]⟩

theorem atQuote_extend (t : Text) (h : Ended c.ahead) : atQuote (c.extend t) = atQuote c := by
  rw [atQuote, Cursor.extend, h.head?_append, atQuote]

/-- A literal is closed on its line or not at all. -/
theorem literal?_extend (kind : Kind) (t : Text) (h : Ended c.ahead) (hq : atQuote c) :
    literal? kind (c.extend t) = (literal? kind c).map fun r => (r.1, r.2.extend t) := by
  obtain ⟨q, u, hc, hquote⟩ := exists_quote hq
  have hu : Ended u := by
    rw [hc] at h
    exact h.tail_of_ne (by rintro rfl; exact absurd hquote (by decide))
  have hce : (c.extend t).ahead = q :: (u ++ t) := by rw [Cursor.extend, hc]; rfl
  unfold literal?
  simp only [hc, hce, stringEnd?_ended q t hu]
  cases hn : stringEnd? q u with
  | none => rfl
  | some n =>
    obtain ⟨raw, rest, -, rfl, rfl⟩ := append_of_stringEnd? hn
    have hle : raw.length + 1 ≤ (raw ++ q :: rest).length := by simp
    rw [Option.map_some, Option.map_some, Option.map_some, List.take_append_of_le_length hle,
      Cursor.extend_advance t (by rw [hc]; exact Nat.succ_le_succ hle)]
    rfl

theorem literalOrQuote_extend (kind : Kind) (t : Text) (h : Ended c.ahead) (hq : atQuote c) :
    literalOrQuote kind (c.extend t) =
      ((literalOrQuote kind c).1, (literalOrQuote kind c).2.extend t) := by
  unfold literalOrQuote
  rw [literal?_extend kind t h hq]
  cases literal? kind c with
  | none =>
    dsimp only [Option.map_none]
    rw [Cursor.extend_advance t (List.length_pos_iff.mpr h.ne_nil)]
  | some r => rfl

/-! ### Readers -/

/-- The reader that has answered `r` answers alike on the longer text, or it has come to the end of
the lines without an import. -/
def Agree (t : Text) (r r' : Option Import × Cursor) : Prop :=
  r' = (r.1, r.2.extend t) ∨ r.1 = none ∧ Idle r.2

theorem agree_none (c : Cursor) (t : Text) : Agree t (none, c) (none, c.extend t) := Or.inl rfl

theorem agree_idle {r : Option Import × Cursor} (h : Idle c) : Agree t (none, c) r := Or.inr ⟨rfl, h⟩

theorem idle_skipTrivia (h : Idle c) : Idle (skipTrivia c) := by
  rwa [Idle, skipTrivia_skipTrivia]

/-- Behind a word, the clause of the longer text goes on as that of the lines does. -/
theorem clause_extend_word {kind : Kind} {x : Char} {u : Text} (t : Text) (h : Settled c)
    (hd : (skipTrivia c).ahead = x :: u) (hx : x ≠ '\x7b') (hs : ¬ (x = '*' || x = ','))
    (hw : isWordStart x) (hnext : (skipTrivia c).advance (wordEnd u + 1) = d) (hi : ¬ Idle d) :
    clause kind (c.extend t) =
      if x :: u.take (wordEnd u) = "from".toList && atQuote (skipTrivia d) then
        literalOrQuote kind ((skipTrivia d).extend t)
      else clause kind (d.extend t) := by
  obtain ⟨hend, hskip, hahead⟩ := h.extend_cons t hd
  have hu : Ended u := hend.tail_of_ne (by rintro rfl; exact absurd hw (by decide))
  have hle : wordEnd u + 1 ≤ (skipTrivia c).ahead.length := by
    rw [hd, List.length_cons]
    exact Nat.succ_le_succ (wordEnd_le u)
  have hsettled : Settled d := hnext ▸ h.passed _
  rw [clause_cons hahead, if_neg hx, if_neg hs, if_pos hw, hskip, wordEnd_ended t hu,
    List.take_append_of_le_length (wordEnd_le u), Cursor.extend_advance t hle, hnext,
    skipTrivia_extend t hsettled hi, atQuote_extend t (hsettled.ended_skipTrivia hi)]

theorem agree_clause (kind : Kind) (t : Text) (h : Settled c) :
    Agree t (clause kind c) (clause kind (c.extend t)) := by
  fun_induction clause kind c with
  | case1 c d hd => exact agree_idle (idle_of_nil hd)
  | case2 c d u n hn hd ih =>
    obtain ⟨hend, hskip, hahead⟩ := h.extend_cons t hd
    obtain ⟨hlt, -⟩ := List.findIdx?_eq_some_iff_getElem.mp hn
    have hle : n + 2 ≤ d.ahead.length := by rw [hd, List.length_cons]; omega
    rw [clause_cons hahead, if_pos rfl, List.findIdx?_append, hn, Option.some_or, hskip]
    dsimp only
    rw [Cursor.extend_advance t hle]
    exact ih (h.passed _)
  | case3 c d u hn hd => exact agree_idle (idle_of_nil (by simp [Cursor.finish]))
  | case4 c d x u hd hx hs ih =>
    obtain ⟨hend, hskip, hahead⟩ := h.extend_cons t hd
    have hle : 1 ≤ d.ahead.length := by rw [hd, List.length_cons]; omega
    rw [clause_cons hahead, if_neg hx, if_pos hs, hskip, Cursor.extend_advance t hle]
    exact ih (h.passed _)
  | case5 c d x u hd hx hs hw next hq =>
    have hquote : atQuote (skipTrivia next) := ((Bool.and_eq_true _ _).mp hq).2
    have hi : ¬ Idle next := by
      obtain ⟨q, v, hv, -⟩ := exists_quote hquote
      rw [Idle, hv]
      exact List.cons_ne_nil q v
    have hsettled : Settled next := h.passed _
    rw [clause_extend_word t h hd hx hs hw rfl hi, if_pos hq]
    exact Or.inl (literalOrQuote_extend kind t (hsettled.ended_skipTrivia hi) hquote)
  | case6 c d x u hd hx hs hw next hq ih =>
    by_cases hi : Idle next
    · -- the longer text may put a literal behind this word; the clause ends here without one
      rw [clause_nil hi]
      exact agree_idle (idle_skipTrivia hi)
    · rw [clause_extend_word t h hd hx hs hw rfl hi, if_neg hq]
      exact ih (h.passed _)
  | case7 c d x u hd hx hs hw =>
    obtain ⟨hend, hskip, hahead⟩ := h.extend_cons t hd
    rw [clause_cons hahead, if_neg hx, if_neg hs, if_neg hw, hskip]
    exact agree_none d t

theorem agree_dynamicArgument (t : Text) (h : Settled c) :
    Agree t (dynamicArgument c) (dynamicArgument (c.extend t)) := by
  by_cases hi : Idle c
  · have hq : ¬ atQuote (skipTrivia c) := by rw [atQuote, hi]; decide
    rw [dynamicArgument, if_neg hq]
    exact agree_idle (idle_skipTrivia hi)
  have hend := h.ended_skipTrivia hi
  unfold dynamicArgument
  dsimp only
  rw [skipTrivia_extend t h hi, atQuote_extend t hend]
  by_cases hq : atQuote (skipTrivia c)
  · rw [if_pos hq, if_pos hq, literal?_extend .dynamic t hend hq]
    cases hl : literal? .dynamic (skipTrivia c) with
    | none => exact agree_none _ t
    | some r =>
      obtain ⟨i, d⟩ := r
      have hd : Settled d := Settled.onward (Or.inr hend) (onward_literal? hl)
      dsimp only [Option.map_some]
      by_cases hi' : Idle d
      · -- the closing parenthesis is missing
        rw [hi', if_neg (by simp)]
        exact agree_idle hi'
      · have hc : (skipTrivia (d.extend t)).ahead.head? = (skipTrivia d).ahead.head? := by
          rw [skipTrivia_extend t hd hi', Cursor.extend, (hd.ended_skipTrivia hi').head?_append]
        rw [hc]
        exact Or.inl rfl
  · rw [if_neg hq, if_neg hq]
    exact agree_none _ t

theorem agree_afterImport (t : Text) (h : Settled c) :
    Agree t (afterImport c) (afterImport (c.extend t)) := by
  by_cases hi : Idle c
  · have hq : ¬ atQuote (skipTrivia c) := by rw [atQuote, hi]; decide
    rw [afterImport, if_neg hq, if_neg (by rw [hi]; decide), if_neg (by rw [hi]; decide),
      clause_nil (idle_skipTrivia hi)]
    exact agree_idle (idle_skipTrivia (idle_skipTrivia hi))
  have hend := h.ended_skipTrivia hi
  have hs : Settled (skipTrivia c) := Or.inr hend
  have hle := List.length_pos_iff.mpr hend.ne_nil
  have hhead : ((skipTrivia c).extend t).ahead.head? = (skipTrivia c).ahead.head? :=
    hend.head?_append t
  unfold afterImport
  dsimp only
  rw [skipTrivia_extend t h hi, atQuote_extend t hend, hhead]
  by_cases hq : atQuote (skipTrivia c)
  · rw [if_pos hq, if_pos hq]
    exact Or.inl (literalOrQuote_extend .static t hend hq)
  rw [if_neg hq, if_neg hq, Cursor.extend_advance t hle]
  split
  · exact agree_dynamicArgument t (hs.onward (Cursor.onward_advance 1 _))
  split
  · exact agree_none _ t
  · exact agree_clause .static t hs

theorem agree_afterExport (t : Text) (h : Settled c) :
    Agree t (afterExport c) (afterExport (c.extend t)) := by
  by_cases hi : Idle c
  · rw [afterExport, if_neg (by rw [hi]; decide)]
    exact agree_idle (idle_skipTrivia hi)
  have hend := h.ended_skipTrivia hi
  have hhead : ((skipTrivia c).extend t).ahead.head? = (skipTrivia c).ahead.head? :=
    hend.head?_append t
  unfold afterExport
  dsimp only
  rw [skipTrivia_extend t h hi, hhead]
  split
  · exact agree_clause .reexport t (Or.inr hend)
  · exact agree_none _ t

theorem agree_afterWord (word t : Text) (h : Settled c) :
    Agree t (afterWord word c) (afterWord word (c.extend t)) := by
  unfold afterWord
  split
  · exact agree_afterImport t h
  split
  · exact agree_afterExport t h
  · exact agree_none c t

/-! ### The scan -/

theorem size_le_of_word {behind u : Text} {x : Char} (h : (Lexeme.read behind x u).kind = .word) :
    (Lexeme.read behind x u).size ≤ u.length := by
  rcases Lexeme.read_cases behind x u with hr | ⟨-, hr⟩ | hr
  · rw [hr]
    exact Nat.zero_le _
  · rw [hr]
    exact wordEnd_le u
  · exact absurd (by rw [h]; decide) hr

/-- **A step of the scan** on the longer text. -/
theorem agree_step {x : Char} {u : Text} (t : Text) (hx : c.ahead = x :: u) (h : Ended c.ahead) :
    Agree t (step c x u) (step (c.extend t) x (u ++ t)) := by
  have hbehind : (c.extend t).behind = c.behind := rfl
  by_cases hlast : (Lexeme.read c.behind x u).kind ≠ .word ∧
      u.length ≤ (Lexeme.read c.behind x u).size
  · rw [step, if_neg fun hw => hlast.1 hw.1]
    refine agree_idle (idle_of_nil ?_)
    rw [Cursor.ahead_advance, hx, List.drop_succ_cons, List.drop_eq_nil_iff]
    exact hlast.2
  have hread : Lexeme.read c.behind x (u ++ t) = Lexeme.read c.behind x u := by
    rcases Lexeme.read_ended c.behind t (hx ▸ h) with hr | ⟨hk, hs⟩
    · exact hr
    · exact absurd ⟨hk, hs.ge⟩ hlast
  have hle : (Lexeme.read c.behind x u).size ≤ u.length := by
    by_cases hk : (Lexeme.read c.behind x u).kind = .word
    · exact size_le_of_word hk
    · by_contra hn
      exact hlast ⟨hk, by omega⟩
  have hle' : (Lexeme.read c.behind x u).size + 1 ≤ c.ahead.length := by
    rw [hx, List.length_cons]
    omega
  unfold step
  dsimp only
  rw [hbehind, hread, List.take_append_of_le_length hle, Cursor.extend_advance t hle']
  split
  · exact agree_afterWord _ t (Settled.onward (Or.inr h) (Cursor.onward_advance _ c))
  · exact agree_none _ t

theorem scanFrom_isPrefix (t : Text) (h : Settled c) : scanFrom c <+: scanFrom (c.extend t) := by
  fun_induction scanFrom c with
  | case1 c hc => exact List.nil_prefix
  | case2 c x u hx ih =>
    have hend : Ended c.ahead := by
      rcases h with h | h
      · exact absurd (hx.symm.trans h) (List.cons_ne_nil x u)
      · exact h
    have hx' : (c.extend t).ahead = x :: (u ++ t) := by rw [Cursor.extend, hx, List.cons_append]
    rcases agree_step t hx hend with hs | ⟨hnone, hidle⟩
    · obtain ⟨p, hw, he⟩ := walk_step hx
      rw [scanFrom_cons hx', hs]
      exact (List.prefix_append_right_inj _).mpr (ih (h.onward (hw.onward.trans he.onward)))
    · rw [hnone, scanFrom_idle hidle]
      exact List.nil_prefix

/-- **What follows a complete line takes nothing back.** The imports of a source that ends with a
newline, with no backslash before it, are the first imports of the source with any text after it. -/
theorem scan_isPrefix {s : Text} (h : Ended s) (t : Text) : scan s <+: scan (s ++ t) :=
  scanFrom_isPrefix t (Or.inr h)

/-- A comment and an argument that are open at the end of the line are closed by what follows. -/
theorem scan_isPrefix_open :
    let s := "import 'a'; import('b' /*\n".toList
    let t := "*/); import 'c'".toList
    Ended s ∧ scan s = [⟨7, 10, "a".toList, .static⟩] ∧ scan s <+: scan (s ++ t) ∧
      (scan (s ++ t)).length = 3 := by
  have h : Ended "import 'a'; import('b' /*\n".toList :=
    ⟨"import 'a'; import('b' /*".toList, by decide, by decide⟩
  exact ⟨h, by decide +kernel, scan_isPrefix h _, by decide +kernel⟩

end Import

end Unbundled
