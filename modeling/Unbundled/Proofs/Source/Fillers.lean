import Unbundled.Proofs.Source.Splits

/-! # What stands between two tokens

White space and closed comments may stand between any two tokens of a script. Such a text is passed as
a whole, whatever follows it (`triviaEnd_filler`). -/

namespace Unbundled.Source

/-- White space and closed comments, one after the other. A line comment is closed by its newline. -/
inductive IsFiller : Text → Prop
  | nil : IsFiller []
  | space {x : Char} {t : Text} : isSpace x → IsFiller t → IsFiller (x :: t)
  | line {s t : Text} : '\n' ∉ s → IsFiller t → IsFiller ('/' :: '/' :: (s ++ '\n' :: t))
  | block {s t : Text} : ¬ ['*', '/'] <:+: s → IsFiller t →
      IsFiller ('/' :: '*' :: (s ++ '*' :: '/' :: t))

variable {f s t : Text}

theorem blockEnd?_close (hs : ¬ ['*', '/'] <:+: s) (t : Text) :
    blockEnd? (s ++ '*' :: '/' :: t) = some (s.length + 2) := by
  induction s with
  | nil => rfl
  | cons c s ih =>
    have htail : ¬ ['*', '/'] <:+: s := fun h => hs (h.trans (List.suffix_cons c s).isInfix)
    have hnext : ∀ v, c = '*' → s ++ '*' :: '/' :: t = '/' :: v → False := by
      rintro v rfl hv
      cases s with
      | nil => exact absurd (List.cons.inj hv).1 (by decide)
      | cons d s =>
        obtain ⟨rfl, -⟩ := List.cons.inj hv
        exact hs ⟨[], s, rfl⟩
    rw [List.cons_append, blockEnd?, ih htail]
    · rfl
    · exact hnext

theorem commentEnd?_line (hs : '\n' ∉ s) (t : Text) :
    commentEnd? ('/' :: (s ++ '\n' :: t)) = some (s.length + 2) := by
  rw [commentEnd?, lineEnd?_append hs, Option.getD_some, Nat.add_comm]

theorem commentEnd?_block (hs : ¬ ['*', '/'] <:+: s) (t : Text) :
    commentEnd? ('*' :: (s ++ '*' :: '/' :: t)) = some (s.length + 3) := by
  rw [commentEnd?, blockEnd?_close hs, Option.getD_some, Nat.add_comm]

theorem triviaEnd_comment {n : Nat} (h : commentEnd? t = some n) :
    triviaEnd ('/' :: t) = 1 + n + triviaEnd (t.drop n) := by
  rw [triviaEnd, if_neg (by decide), if_pos rfl, h]

/-- **A filler is passed as a whole.** -/
theorem triviaEnd_filler (hf : IsFiller f) (t : Text) :
    triviaEnd (f ++ t) = f.length + triviaEnd t := by
  induction hf with
  | nil => rw [List.nil_append, List.length_nil, Nat.zero_add]
  | @space x g hx _ ih =>
    rw [List.cons_append, triviaEnd, if_pos hx, ih, List.length_cons]
    omega
  | @line s g hs _ ih =>
    have hsplit : '/' :: '/' :: (s ++ '\n' :: g) ++ t =
        '/' :: ('/' :: (s ++ ['\n']) ++ (g ++ t)) := by simp
    have hcomment := commentEnd?_line hs (g ++ t)
    have hlen : ('/' :: (s ++ ['\n'])).length = s.length + 2 := by simp
    rw [hsplit, triviaEnd_comment (n := s.length + 2) (by simpa using hcomment), ← hlen,
      List.drop_left, ih, hlen]
    simp only [List.length_cons, List.length_append]
    omega
  | @block s g hs _ ih =>
    have hsplit : '/' :: '*' :: (s ++ '*' :: '/' :: g) ++ t =
        '/' :: ('*' :: (s ++ ['*', '/']) ++ (g ++ t)) := by simp
    have hcomment := commentEnd?_block hs (g ++ t)
    have hlen : ('*' :: (s ++ ['*', '/'])).length = s.length + 3 := by simp
    rw [hsplit, triviaEnd_comment (n := s.length + 3) (by simpa using hcomment), ← hlen,
      List.drop_left, ih, hlen]
    simp only [List.length_cons, List.length_append]
    omega

/-- A filler that is not empty keeps two words apart. -/
theorem IsFiller.noWord (hf : IsFiller f) (hne : f ≠ []) (t : Text) : NoWord (f ++ t) := by
  cases hf with
  | nil => exact absurd rfl hne
  | space hx _ => exact noWord_cons (not_isWordChar_of_isSpace hx) _
  | line _ _ => exact noWord_cons (by decide) _
  | block _ _ => exact noWord_cons (by decide) _

end Unbundled.Source
