import Unbundled.Proofs.Source.Lexemes
import Unbundled.Proofs.Source.Strings

/-! # Known parts of a text

A text is split from left to right, and the text that comes before decides only what a slash means.
Where a mark, a word, a closed string or a line comment is ahead, it is hence split off as one lexeme,
whatever lies around it (`lexemes_plain`, `lexemes_word`, `lexemes_quoted`, `lexemes_comment`). -/

namespace Unbundled.Source

variable {b s t w : Text} {x : Char}

/-- The lexeme at the front of a text, and those of the rest. -/
theorem lexemes_of_read {kind : Kind} (h : Lexeme.read b x (s ++ t) = ⟨kind, s.length⟩) :
    lexemes b (x :: (s ++ t)) = (kind, x :: s) :: lexemes ((x :: s).reverse ++ b) t := by
  rw [lexemes, h]
  dsimp only
  rw [List.take_left, List.drop_left, List.reverse_cons, List.append_assoc, List.singleton_append]

theorem lexemes_plain (hx : isPlain x) : lexemes b (x :: t) = (.other, [x]) :: lexemes (x :: b) t :=
  lexemes_of_read (s := []) (Lexeme.read_plain hx)

theorem lexemes_word (hw : IsWord w) (ht : NoWord t) :
    lexemes b (w ++ t) = (.word, w) :: lexemes (w.reverse ++ b) t := by
  obtain ⟨x, u, rfl, hx, hend⟩ := hw.shape ht
  refine lexemes_of_read ?_
  rw [Lexeme.read_word hx, hend]

theorem lexemes_quoted {q : Char} {raw : Text} (hq : isQuote q) (h : Inside q raw) :
    lexemes b (quoted q raw ++ t) =
      (.string, quoted q raw) :: lexemes ((quoted q raw).reverse ++ b) t := by
  have hread : Lexeme.read b q ((raw ++ [q]) ++ t) = ⟨.string, (raw ++ [q]).length⟩ := by
    rw [List.append_assoc, List.length_append, List.length_singleton]
    exact Lexeme.read_string hq (stringEnd?_append hq t h)
  exact lexemes_of_read hread

theorem lineEnd?_append (hs : '\n' ∉ s) (t : Text) :
    lineEnd? (s ++ '\n' :: t) = some (s.length + 1) := by
  induction s with
  | nil => rfl
  | cons c s ih =>
    rw [List.mem_cons, not_or] at hs
    rw [List.cons_append, lineEnd?, if_neg (Ne.symm hs.1), ih hs.2]
    rfl

/-- A comment runs up to the end of its line. -/
theorem lexemes_comment (hs : '\n' ∉ s) :
    lexemes b ('/' :: '/' :: s ++ '\n' :: t) =
      (.comment, '/' :: '/' :: s ++ ['\n']) ::
        lexemes (('/' :: '/' :: s ++ ['\n']).reverse ++ b) t := by
  have hread : Lexeme.read b '/' (('/' :: s ++ ['\n']) ++ t) =
      ⟨.comment, ('/' :: s ++ ['\n']).length⟩ := by
    refine Lexeme.read_comment ?_
    rw [List.append_assoc, List.singleton_append, List.cons_append, commentEnd?, lineEnd?_append hs]
    simp [Nat.add_comm]
  have := lexemes_of_read hread
  rwa [List.append_assoc] at this

end Unbundled.Source
