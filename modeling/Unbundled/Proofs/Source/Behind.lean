import Unbundled.Proofs.Source.Lexemes

/-! # What stands behind a lexeme

What stands behind a place matters for two questions only: whether a slash opens a regular expression
there, and whether a word goes on. Two texts are `Alike` if they answer both in the same way, whatever
is written after them; every lexeme is then read in the same way behind the one and the other
(`Alike.read_eq`).

Once something solid has been read, what was behind it before no longer counts
(`alike_append`), and the start of a text is like the start of a statement (`alike_statement`). -/

namespace Unbundled.Source

variable {b b' p t : Text} {x : Char}

/-- A slash and a word mean the same behind both texts. -/
structure Alike (b b' : Text) : Prop where
  slash (p : Text) : regexAllowed (p ++ b) = regexAllowed (p ++ b')
  word : NoWord b ↔ NoWord b'

theorem Alike.refl (b : Text) : Alike b b := ⟨fun _ => rfl, Iff.rfl⟩

theorem Alike.append (h : Alike b b') (p : Text) : Alike (p ++ b) (p ++ b') where
  slash q := by rw [← List.append_assoc, h.slash, List.append_assoc]
  word := by
    cases p with
    | nil => exact h.word
    | cons x p => exact Iff.rfl

/-! ### Lexemes behind both -/

theorem Alike.readFlat_eq (h : Alike b b') (x : Char) (t : Text) :
    Lexeme.readFlat b x t = Lexeme.readFlat b' x t := by
  have hs : regexAllowed b = regexAllowed b' := h.slash []
  rw [Lexeme.readFlat, Lexeme.readFlat, hs]

theorem Alike.step_eq (h : Alike b b') (place : Nesting) (x : Char) (t : Text) :
    place.step b x t = place.step b' x t := by
  cases place with
  | text outer => rfl
  | expression depth outer =>
    unfold Nesting.step
    rw [h.readFlat_eq]

theorem Alike.templateEnd?_eq (h : Alike b b') (place : Nesting) (t : Text) :
    templateEnd? place b t = templateEnd? place b' t := by
  generalize hl : t.length = l
  induction l using Nat.strongRecOn generalizing place b b' t with
  | ind l ih =>
    cases t with
    | nil => rw [templateEnd?, templateEnd?]
    | cons x t =>
      rw [templateEnd?, templateEnd?, h.step_eq]
      rcases place.step b' x t with ⟨_ | still, n⟩
      · rfl
      · have hlt := Text.length_drop_lt n x t
        have hn := h.append ((t.take n).reverse ++ [x])
        rw [List.append_assoc, List.append_assoc] at hn
        dsimp only
        exact congrArg _ (ih _ (hl ▸ hlt) hn still (t.drop n) rfl)

/-- **A lexeme is the same behind both texts.** -/
theorem Alike.read_eq (h : Alike b b') (x : Char) (t : Text) :
    Lexeme.read b x t = Lexeme.read b' x t := by
  have ht : templateEnd? (.text []) (x :: b) t = templateEnd? (.text []) (x :: b') t :=
    (h.append [x]).templateEnd?_eq (.text []) t
  rw [Lexeme.read, Lexeme.read, h.readFlat_eq, ht]

/-! ### Texts that are alike -/

/-- Nothing before a text that is not blank counts, if no word goes on from the one into the other. -/
theorem regexAllowed_append (h : ∃ c ∈ p, ¬ isSpace c)
    (hw : NoWord b ∨ ∃ y ∈ p.getLast?, ¬ isWordChar y) : regexAllowed (p ++ b) = regexAllowed p := by
  have hne : p.dropWhile isSpace ≠ [] := by
    obtain ⟨c, hc, hs⟩ := h
    exact fun hn => hs (List.dropWhile_eq_nil_iff.mp hn c hc)
  obtain ⟨c, z, hz⟩ := List.exists_cons_of_ne_nil hne
  have hword : (c :: z ++ b).takeWhile isWordChar = (c :: z).takeWhile isWordChar := by
    rw [List.takeWhile_append]
    split
    · rename_i hl
      have hall := (List.takeWhile_prefix isWordChar).eq_of_length hl
      rcases hw with hb | ⟨y, hy, hn⟩
      · have : b.takeWhile isWordChar = [] := by
          cases b with
          | nil => rfl
          | cons d b => rw [List.takeWhile_cons, if_neg (hb d rfl)]
        rw [this, List.append_nil, hall]
      · have hlast : p.getLast? = (c :: z).getLast? := by
          rw [← List.takeWhile_append_dropWhile (p := isSpace) (l := p), hz,
            List.getLast?_append, List.getLast?_cons, Option.some_or]
        have hmem : y ∈ (c :: z).takeWhile isWordChar := by
          rw [hall]
          exact List.mem_of_getLast? (hlast.symm.trans hy)
        exact absurd (List.mem_takeWhile_imp hmem) hn
    · rfl
  rw [regexAllowed, regexAllowed, List.dropWhile_append, hz]
  dsimp only [List.isEmpty_cons, List.cons_append] at hword ⊢
  rw [if_neg Bool.false_ne_true]
  dsimp only
  rw [hword]

/-- **What was behind something that is not blank does not count**, once a character that belongs to
no word stands between. -/
theorem alike_append (b b' : Text) (h : ∃ c ∈ p, ¬ isSpace c)
    (hw : ∃ y ∈ p.getLast?, ¬ isWordChar y) : Alike (p ++ b) (p ++ b') where
  slash q := by
    have hq : ∃ c ∈ q ++ p, ¬ isSpace c := by
      obtain ⟨c, hc, hs⟩ := h
      exact ⟨c, List.mem_append_right q hc, hs⟩
    have hqw : ∃ y ∈ (q ++ p).getLast?, ¬ isWordChar y := by
      obtain ⟨y, hy, hn⟩ := hw
      exact ⟨y, by rw [List.getLast?_append, hy]; rfl, hn⟩
    rw [← List.append_assoc, ← List.append_assoc, regexAllowed_append hq (Or.inr hqw),
      regexAllowed_append hq (Or.inr hqw)]
  word := by
    cases p with
    | nil =>
      obtain ⟨y, hy, -⟩ := hw
      exact absurd hy (by simp)
    | cons x p => exact Iff.rfl

/-- Two texts that no word goes on from are alike if a slash means the same behind both. -/
theorem alike_of_slash (h : regexAllowed b = regexAllowed b') (hb : NoWord b) (hb' : NoWord b') :
    Alike b b' where
  slash p := by
    by_cases hp : ∃ c ∈ p, ¬ isSpace c
    · rw [regexAllowed_append hp (Or.inl hb), regexAllowed_append hp (Or.inl hb')]
    · have hs : p.dropWhile isSpace = [] :=
        List.dropWhile_eq_nil_iff.mpr fun c hc => by_contra fun hs => hp ⟨c, hc, hs⟩
      unfold regexAllowed at h ⊢
      rw [List.dropWhile_append, List.dropWhile_append, hs]
      exact h
  word := iff_of_true hb hb'

/-- **A text starts as a statement does**, behind a semicolon. -/
theorem alike_semicolon (b : Text) : Alike [] (';' :: b) := by
  refine alike_of_slash ?_ (fun _ h => absurd h (by simp)) (noWord_cons (by decide) b)
  have hm : ';' ∈ operatorMarks := by decide
  simp [regexAllowed, isSpace, hm]

/-- **A text starts as a statement does** on a new line. -/
theorem alike_statement (b : Text) : Alike [] ('\n' :: ';' :: b) := by
  refine alike_of_slash ?_ (fun _ h => absurd h (by simp)) (noWord_cons (by decide) _)
  have hm : ';' ∈ operatorMarks := by decide
  simp [regexAllowed, isSpace, hm]

end Unbundled.Source
