import Unbundled.Import.Scan
import Unbundled.Proofs.Source.Lexemes
import Unbundled.Proofs.Source.Places

/-! # The walk of the scan

From one place to the next the scan moves by whole lexemes, with one exception: the brace list of a
declaration is passed in one leap, to the character after its first closing brace. A `Walk` is a way
through a text of these two kinds of moves, and keeps the places where its leaps land.

Each reader of the scan is described by one lemma `walk_…`: it walks to some place, and there either
an import is read, or the scan goes on (`Ends`). The leaps of a step are those that `landings` lists.

* `walk_step`: the description of a whole step.
* `Walk.onward`: a walk leads on. -/

namespace Unbundled.Import

open Source

/-! ### Leaps -/

/-- The places after the brace lists that `clause` passes. -/
def landings (c : Cursor) : List Cursor :=
  let c := skipTrivia c
  match h : c.ahead with
  | [] => []
  | x :: t =>
    if x = '\x7b' then
      match t.findIdx? (· = '\x7d') with
      | some n => c.advance (n + 2) :: landings (c.advance (n + 2))
      | none => []
    else if x = '*' || x = ',' then landings (c.advance 1)
    else if isWordStart x then
      let next := c.advance (wordEnd t + 1)
      if x :: t.take (wordEnd t) = "from".toList && atQuote (skipTrivia next) then []
      else landings next
    else []
termination_by c.ahead.length
decreasing_by
  all_goals
    refine Nat.lt_of_lt_of_le (Cursor.length_advance_lt h _) ?_
    exact (onward_skipTrivia _).length_le

theorem landings_nil {c : Cursor} (h : (skipTrivia c).ahead = []) : landings c = [] := by
  rw [landings]
  split
  · rfl
  · rename_i hx
    rw [h] at hx
    exact absurd hx (by simp)

theorem landings_cons {c : Cursor} {x : Char} {t : Text} (h : (skipTrivia c).ahead = x :: t) :
    landings c =
      if x = '\x7b' then
        match t.findIdx? (· = '\x7d') with
        | some n => (skipTrivia c).advance (n + 2) :: landings ((skipTrivia c).advance (n + 2))
        | none => []
      else if x = '*' || x = ',' then landings ((skipTrivia c).advance 1)
      else if isWordStart x then
        if x :: t.take (wordEnd t) = "from".toList &&
            atQuote (skipTrivia ((skipTrivia c).advance (wordEnd t + 1))) then []
        else landings ((skipTrivia c).advance (wordEnd t + 1))
      else [] := by
  rw [landings]
  split
  · rename_i hx
    rw [h] at hx
    exact absurd hx (by simp)
  · rename_i hx
    rw [h] at hx
    obtain ⟨rfl, rfl⟩ := List.cons.inj hx
    rfl

/-- The leaps of what is read after a keyword. -/
def wordLandings (word : Text) (c : Cursor) : List Cursor :=
  let c := skipTrivia c
  if word = "import".toList then
    if atQuote c ∨ c.ahead.head? = some '(' ∨ c.ahead.head? = some '.' then [] else landings c
  else if word = "export".toList then
    if c.ahead.head? = some '*' ∨ c.ahead.head? = some '\x7b' then landings c else []
  else []

/-- The leaps of a step of the scan. -/
def stepLandings (c : Cursor) (x : Char) (t : Text) : List Cursor :=
  let l := Lexeme.read c.behind x t
  if l.kind = .word ∧ lastSolid? c.behind ≠ some '.' then
    wordLandings (x :: t.take l.size) (c.advance (l.size + 1))
  else []

/-! ### Walks -/

/-- A way from `c` to a place by whole lexemes and by leaps, with the landings of the leaps. -/
inductive Walk (c : Cursor) : List Cursor → Cursor → Prop
  | stay : Walk c [] c
  | lexeme {ls : List Cursor} {d : Cursor} {x : Char} {t : Text} : Walk c ls d → d.ahead = x :: t →
      Walk c ls (d.advance ((Lexeme.read d.behind x t).size + 1))
  | leap {ls : List Cursor} {d : Cursor} (n : Nat) : Walk c ls d →
      Walk c (ls ++ [d.advance n]) (d.advance n)

namespace Walk

variable {c d e : Cursor} {ls ms : List Cursor} {x : Char} {t : Text}

theorem trans (h : Walk c ls d) (h' : Walk d ms e) : Walk c (ls ++ ms) e := by
  induction h' with
  | stay => rwa [List.append_nil]
  | lexeme _ ht ih => exact ih.lexeme ht
  | leap n _ ih =>
    rw [← List.append_assoc]
    exact ih.leap n

theorem onward (h : Walk c ls d) : c.Onward d := by
  induction h with
  | stay => exact Cursor.Onward.refl c
  | lexeme _ _ ih => exact ih.trans (Cursor.onward_advance _ _)
  | leap n _ ih => exact ih.trans (Cursor.onward_advance _ _)

/-- A lexeme whose size is known. -/
theorem sized {n : Nat} (h : Walk c ls d) (ht : d.ahead = x :: t)
    (hn : (Lexeme.read d.behind x t).size = n) : Walk c ls (d.advance (n + 1)) :=
  hn ▸ h.lexeme ht

theorem plain (h : Walk c ls d) (ht : d.ahead = x :: t) (hx : isPlain x) :
    Walk c ls (d.advance 1) :=
  h.sized ht (by rw [Lexeme.read_plain hx]; rfl)

theorem word (h : Walk c ls d) (ht : d.ahead = x :: t) (hx : isWordStart x) :
    Walk c ls (d.advance (wordEnd t + 1)) :=
  h.sized ht (by rw [Lexeme.read_word hx])

theorem trivia (h : Walk c ls d) : Walk c ls (skipTrivia d) := by
  unfold skipTrivia
  generalize ht : d.ahead = t
  fun_induction triviaEnd t generalizing d with
  | case1 => rwa [Cursor.advance_zero]
  | case2 x t hx ih =>
    rw [← Cursor.advance_advance]
    exact ih (h.plain ht (isPlain_of_isSpace hx)) (by rw [Cursor.ahead_advance, ht]; rfl)
  | case3 t n hn _ ih =>
    rw [Nat.add_comm 1 n, ← Cursor.advance_advance]
    exact ih (h.sized ht (by rw [Lexeme.read_comment hn])) (by rw [Cursor.ahead_advance, ht]; rfl)
  | case4 => rwa [Cursor.advance_zero]
  | case5 => rwa [Cursor.advance_zero]

/-- The lexemes lead to the end of the text. -/
theorem finish (h : Walk c ls d) : Walk c ls d.finish := by
  generalize hn : d.ahead.length = n
  induction n using Nat.strongRecOn generalizing d with
  | ind n ih =>
    cases ht : d.ahead with
    | nil => rwa [Cursor.finish, ht, List.length_nil, Cursor.advance_zero]
    | cons x t =>
      have hlt := Cursor.length_advance_lt ht (Lexeme.read d.behind x t).size
      have h' := ih _ (by rw [← hn]; exact hlt) (h.lexeme ht) rfl
      rwa [Cursor.finish_advance] at h'

end Walk

/-! ### Literals -/

/-- The import `i` is read from the literal at `p`, and the scan goes on at `d`. -/
structure Read (i : Import) (p d : Cursor) : Prop where
  quote : atQuote p
  literal : literal? i.kind p = some (i, d)

theorem kind_of_literal? {kind : Kind} {i : Import} {p d : Cursor}
    (h : literal? kind p = some (i, d)) : i.kind = kind := by
  unfold literal? at h
  split at h
  · exact absurd h (by simp)
  · obtain ⟨n, -, he⟩ := Option.map_eq_some_iff.mp h
    simp only [Prod.mk.injEq] at he
    rw [← he.1]

theorem exists_quote {c : Cursor} (h : atQuote c) : ∃ q t, c.ahead = q :: t ∧ isQuote q := by
  unfold atQuote at h
  cases hc : c.ahead with
  | nil => rw [hc] at h; exact absurd h (by decide)
  | cons q t =>
    rw [hc] at h
    exact ⟨q, t, rfl, h⟩

/-- **What a literal that was read looks like.** -/
theorem Read.shape {i : Import} {p d : Cursor} (h : Read i p d) :
    ∃ q rest, isQuote q ∧ Inside q i.raw ∧ p.ahead = quoted q i.raw ++ rest ∧
      d = ⟨(quoted q i.raw).reverse ++ p.behind, rest⟩ ∧ i.start = p.offset ∧
      i.stop = i.start + Text.bytes (quoted q i.raw) := by
  obtain ⟨q, t, hp, hq⟩ := exists_quote h.quote
  have hl := h.literal
  unfold literal? at hl
  generalize i.kind = kind at hl
  simp only [hp] at hl
  obtain ⟨n, hn, he⟩ := Option.map_eq_some_iff.mp hl
  obtain ⟨raw, rest, hin, rfl, rfl⟩ := append_of_stringEnd? hn
  have htake : (raw ++ q :: rest).take (raw.length + 1) = raw ++ [q] := by
    rw [List.take_length_add_append, List.take_succ_cons, List.take_zero]
  rw [htake, List.dropLast_concat] at he
  simp only [Prod.mk.injEq] at he
  obtain ⟨rfl, hd⟩ := he
  rw [← quoted_append] at hp
  rw [← length_quoted, Cursor.advance_length hp] at hd
  exact ⟨q, rest, hq, hin, hp, hd.symm, rfl, rfl⟩

theorem Read.onward {i : Import} {p d : Cursor} (h : Read i p d) : p.Onward d :=
  onward_literal? h.literal

theorem Read.stop_eq {i : Import} {p d : Cursor} (h : Read i p d) : i.stop = d.offset := by
  obtain ⟨q, rest, -, -, -, hd, hstart, hstop⟩ := h.shape
  rw [hstop, hstart, hd, Cursor.offset, Cursor.offset, Text.bytes_append, Text.bytes_reverse,
    Nat.add_comm]

/-- A literal is one lexeme. -/
theorem Read.walk {i : Import} {p d c : Cursor} {ls : List Cursor} (h : Read i p d)
    (hw : Walk c ls p) : Walk c ls d := by
  obtain ⟨q, rest, hq, hin, hp, hd, -, -⟩ := h.shape
  rw [hd, ← Cursor.advance_length hp, length_quoted]
  rw [quoted_append] at hp
  exact hw.sized hp (by rw [Lexeme.read_string hq (stringEnd?_append hq rest hin)])

/-! ### Readers -/

/-- How a reader ends that has come to `p`: an import is read there, or the scan goes on there. -/
def Ends (p : Cursor) : Option Import × Cursor → Prop
  | (some i, d) => Read i p d
  | (none, d) => d = p

theorem Ends.read {p : Cursor} {i : Import} {r : Option Import × Cursor} (h : Ends p r)
    (hi : r.1 = some i) : Read i p r.2 := by
  obtain ⟨o, d⟩ := r
  cases hi
  exact h

theorem Ends.eq_of_none {p : Cursor} {r : Option Import × Cursor} (h : Ends p r)
    (hi : r.1 = none) : r.2 = p := by
  obtain ⟨o, d⟩ := r
  cases hi
  exact h

theorem Ends.onward {p : Cursor} {r : Option Import × Cursor} (h : Ends p r) : p.Onward r.2 := by
  cases hi : r.1 with
  | none => exact h.eq_of_none hi ▸ Cursor.Onward.refl p
  | some i => exact (h.read hi).onward

variable {c d : Cursor} {ls : List Cursor}

theorem walk_literalOrQuote (kind : Kind) (h : Walk c ls d) (hq : atQuote d) :
    ∃ p, Walk c ls p ∧ Ends p (literalOrQuote kind d) := by
  obtain ⟨q, t, hd, hquote⟩ := exists_quote hq
  unfold literalOrQuote
  cases hl : literal? kind d with
  | some r =>
    obtain ⟨i, e⟩ := r
    exact ⟨d, h, hq, by rw [kind_of_literal? hl, hl]⟩
  | none =>
    have hn : stringEnd? q t = none := by
      simpa only [literal?, hd, Option.map_eq_none_iff] using hl
    exact ⟨d.advance 1, h.sized hd (by rw [Lexeme.read_open_quote hquote hn]; rfl), rfl⟩

theorem isPlain_of_mark {x : Char} (h : (x = '*' || x = ',') = true) : isPlain x := by
  simp only [Bool.or_eq_true, decide_eq_true_eq] at h
  rcases h with rfl | rfl <;> decide

theorem walk_clause (kind : Kind) (c : Cursor) :
    ∃ p, Walk c (landings c) p ∧ Ends p (clause kind c) := by
  fun_induction clause kind c with
  | case1 c d h =>
    rw [landings_nil h]
    exact ⟨d, Walk.stay.trivia, rfl⟩
  | case2 c d t n hn h ih =>
    obtain ⟨p, hw, he⟩ := ih
    rw [landings_cons h, if_pos rfl, hn]
    exact ⟨p, (Walk.leap (n + 2) Walk.stay.trivia).trans hw, he⟩
  | case3 c d t hn h =>
    rw [landings_cons h, if_pos rfl, hn]
    exact ⟨d.finish, Walk.stay.trivia.finish, rfl⟩
  | case4 c d x t h hx hs ih =>
    obtain ⟨p, hw, he⟩ := ih
    rw [landings_cons h, if_neg hx, if_pos hs]
    exact ⟨p, (Walk.stay.trivia.plain h (isPlain_of_mark hs)).trans hw, he⟩
  | case5 c d x t h hx hs hw next hq =>
    rw [landings_cons h, if_neg hx, if_neg hs, if_pos hw, if_pos hq]
    rw [Bool.and_eq_true] at hq
    exact walk_literalOrQuote kind (Walk.stay.trivia.word h hw).trivia hq.2
  | case6 c d x t h hx hs hw next hq ih =>
    obtain ⟨p, hwalk, he⟩ := ih
    rw [landings_cons h, if_neg hx, if_neg hs, if_pos hw, if_neg hq]
    exact ⟨p, (Walk.stay.trivia.word h hw).trans hwalk, he⟩
  | case7 c d x t h hx hs hw =>
    rw [landings_cons h, if_neg hx, if_neg hs, if_neg hw]
    exact ⟨d, Walk.stay.trivia, rfl⟩

theorem walk_dynamicArgument (h : Walk c ls d) :
    ∃ p, Walk c ls p ∧ Ends p (dynamicArgument d) := by
  unfold dynamicArgument
  dsimp only
  split
  · rename_i hq
    split
    · rename_i i e hl
      have hr : Read i (skipTrivia d) e := ⟨hq, by rw [kind_of_literal? hl, hl]⟩
      split
      · exact ⟨_, h.trivia, hr⟩
      · exact ⟨e, hr.walk h.trivia, rfl⟩
    · exact ⟨_, h.trivia, rfl⟩
  · exact ⟨_, h.trivia, rfl⟩

theorem exists_of_head? {x : Char} (h : d.ahead.head? = some x) : ∃ t, d.ahead = x :: t :=
  List.head?_eq_some_iff.mp h

theorem walk_afterWord (word : Text) (h : Walk c ls d) :
    ∃ p, Walk c (ls ++ wordLandings word d) p ∧ Ends p (afterWord word d) := by
  unfold afterWord wordLandings
  dsimp only
  split
  · unfold afterImport
    dsimp only
    by_cases hq : atQuote (skipTrivia d)
    · rw [if_pos (Or.inl hq), if_pos hq, List.append_nil]
      exact walk_literalOrQuote .static h.trivia hq
    rw [if_neg hq]
    by_cases hp : (skipTrivia d).ahead.head? = some '('
    · obtain ⟨t, ht⟩ := exists_of_head? hp
      rw [if_pos (Or.inr (Or.inl hp)), if_pos hp, List.append_nil]
      exact walk_dynamicArgument (h.trivia.plain ht (by decide))
    rw [if_neg hp]
    by_cases hm : (skipTrivia d).ahead.head? = some '.'
    · obtain ⟨t, ht⟩ := exists_of_head? hm
      rw [if_pos (Or.inr (Or.inr hm)), if_pos hm, List.append_nil]
      exact ⟨_, h.trivia.plain ht (by decide), rfl⟩
    rw [if_neg hm, if_neg (by simp [hq, hp, hm])]
    obtain ⟨p, hw, he⟩ := walk_clause .static (skipTrivia d)
    exact ⟨p, h.trivia.trans hw, he⟩
  split
  · unfold afterExport
    dsimp only
    split
    · obtain ⟨p, hw, he⟩ := walk_clause .reexport (skipTrivia d)
      exact ⟨p, h.trivia.trans hw, he⟩
    · rw [List.append_nil]
      exact ⟨_, h.trivia, rfl⟩
  · rw [List.append_nil]
    exact ⟨d, h, rfl⟩

/-- **The walk of a step.** -/
theorem walk_step {x : Char} {t : Text} (h : c.ahead = x :: t) :
    ∃ p, Walk c (stepLandings c x t) p ∧ Ends p (step c x t) := by
  have hnext := Walk.stay.lexeme h
  unfold step stepLandings
  dsimp only
  split
  · exact walk_afterWord _ hnext
  · exact ⟨_, hnext, rfl⟩

end Unbundled.Import
