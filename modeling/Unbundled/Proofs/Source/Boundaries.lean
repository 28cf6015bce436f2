import Unbundled.Proofs.Source.Lexemes
import Unbundled.Proofs.Source.Places

/-! # Lexemes with their places

`spans` puts the lexemes of a text next to their byte offsets. A byte is hidden by a lexeme that is
no code, a comment, a template literal, a regular expression or a string, if it lies in it; the first
byte of a string is not hidden by this string (`Span.hides`). The boundaries of a text are the
offsets where a lexeme starts, and the end.

The lexemes from a place on (`spansAt`) are those of the whole text that do not end before it. -/

namespace Unbundled.Source

/-- A lexeme in its text. -/
structure Span where
  kind : Kind
  start : Nat
  stop : Nat
  deriving DecidableEq, Repr

/-- The spans of lexemes that follow one another from byte `pos` on. -/
def spansFrom (pos : Nat) : List (Kind × Text) → List Span
  | [] => []
  | (kind, t) :: rest => ⟨kind, pos, pos + Text.bytes t⟩ :: spansFrom (pos + Text.bytes t) rest

/-- The lexemes of a text with their places. -/
def spans (source : Text) : List Span := spansFrom 0 (lexemes [] source)

/-- The offsets between the lexemes of a text, its end included. -/
def boundaries (source : Text) : List Nat := (spans source).map Span.start ++ [Text.bytes source]

/-- Whether byte `n` lies inside a lexeme that is no code. The opening quote of a string is the
string itself and lies inside none. -/
def Span.hides (s : Span) (n : Nat) : Bool :=
  match s.kind with
  | .comment | .template | .regex => s.start ≤ n && n < s.stop
  | .string => s.start < n && n < s.stop
  | .word | .other => false

/-! ### The lexemes from a place on -/

/-- The spans of the lexemes ahead of a place. -/
def spansAt (c : Cursor) : List Span := spansFrom c.offset (lexemes c.behind c.ahead)

theorem spansAt_start (source : Text) : spansAt (Cursor.start source) = spans source := rfl

theorem spansAt_nil {c : Cursor} (h : c.ahead = []) : spansAt c = [] := by
  rw [spansAt, h, lexemes, spansFrom]

/-- The first span, and those from the next place on. -/
theorem spansAt_cons {c : Cursor} {x : Char} {t : Text} (h : c.ahead = x :: t) :
    spansAt c =
      ⟨(Lexeme.read c.behind x t).kind, c.offset,
        (c.advance ((Lexeme.read c.behind x t).size + 1)).offset⟩ ::
        spansAt (c.advance ((Lexeme.read c.behind x t).size + 1)) := by
  rw [spansAt, h, lexemes, spansFrom, spansAt, Cursor.offset_advance, Cursor.behind_advance,
    Cursor.ahead_advance, h, List.take_succ_cons, List.drop_succ_cons, List.reverse_cons,
    List.append_assoc, List.singleton_append]

theorem offset_le_of_mem_spansAt {c : Cursor} {s : Span} (h : s ∈ spansAt c) :
    c.offset ≤ s.start := by
  generalize hn : c.ahead.length = n
  induction n using Nat.strongRecOn generalizing c with
  | ind n ih =>
    cases hc : c.ahead with
    | nil =>
      rw [spansAt_nil hc] at h
      exact absurd h List.not_mem_nil
    | cons x t =>
      rw [spansAt_cons hc] at h
      rcases List.mem_cons.mp h with rfl | h
      · exact Nat.le_refl _
      · have hlt := Cursor.length_advance_lt hc (Lexeme.read c.behind x t).size
        exact Nat.le_trans (Cursor.onward_advance _ c).offset_le (ih _ (hn ▸ hlt) h rfl)

/-! ### What hides a byte -/

theorem bounds_of_hides {s : Span} {n : Nat} (h : s.hides n) : s.start ≤ n ∧ n < s.stop := by
  unfold Span.hides at h
  split at h
  all_goals simp only [Bool.and_eq_true, decide_eq_true_eq, Bool.false_eq_true] at h
  all_goals omega

/-- A byte strictly inside is hidden, unless the lexeme is code. -/
theorem hides_or {s : Span} {n : Nat} (h1 : s.start < n) (h2 : n < s.stop) :
    s.hides n ∨ s.kind = .word ∨ s.kind = .other := by
  unfold Span.hides
  cases s.kind <;> simp <;> omega

end Unbundled.Source
