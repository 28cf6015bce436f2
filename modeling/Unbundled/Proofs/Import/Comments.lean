import Unbundled.Proofs.Import.Continued
import Unbundled.Proofs.Import.Elsewhere
import Unbundled.Proofs.Source.Blanked

/-! # Comments that the scan passes

A comment between two lexemes should be as good as blanks. The scan passes it as a whole, but what
stands behind a place is looked up in the characters as they are, those of a comment included: whether a
slash opens a regular expression, and whether a word is the name of a member.

* `scan_blanked`: a comment behind which both are decided as before it may be overwritten with blanks.
* `blanked_iff`: only such a comment may be, whatever follows it. -/

namespace Unbundled.Import

open Source

variable {b p r t : Text} {k : Comment} {is : List Import}

/-! ### A comment and its blanks -/

theorem skipTrivia_comment (hr : k.Ends r) (b : Text) :
    skipTrivia ⟨b, k.text ++ r⟩ = skipTrivia ⟨k.text.reverse ++ b, r⟩ := by
  have hadv := @Cursor.advance_length ⟨b, k.text ++ r⟩ k.text r rfl
  rw [skipTrivia, k.triviaEnd_text hr, ← Cursor.advance_advance, hadv, skipTrivia]

theorem scanFrom_comment (hr : k.Ends r) (b : Text) :
    scanFrom ⟨b, k.text ++ r⟩ = scanFrom ⟨k.text.reverse ++ b, r⟩ := by
  rw [← scanFrom_skipTrivia, skipTrivia_comment hr, scanFrom_skipTrivia]

theorem scanFrom_blank (t b r : Text) :
    scanFrom ⟨b, blank t ++ r⟩ = scanFrom ⟨(blank t).reverse ++ b, r⟩ :=
  scanFrom_plains fun _ hx => isPlain_of_isSpace (isSpace_of_mem_blank hx)

theorem sameNext_blank (hr : k.Ends r) : SameNext (k.text ++ r) (blank k.text ++ r) [] := by
  rw [SameNext, List.nil_append, List.nil_append, skipTrivia_comment hr,
    skipTrivia_gap fun _ hx => isSpace_of_mem_blank hx]
  rfl

theorem triviaEnd_comment_pos (k : Comment) (hr : k.Ends r) : 0 < triviaEnd (k.text ++ r) := by
  have hpos := List.length_pos_iff.mpr k.text_ne_nil
  rw [k.triviaEnd_text hr]
  omega

/-- The scan comes to the blanks in the place of a comment as it comes to the comment. -/
theorem Reached.blanked (hp : Unescaped p) (hr : k.Ends r)
    (h : Reached (p ++ (k.text ++ r)) is ⟨p.reverse, k.text ++ r⟩) :
    Reached (p ++ (blank k.text ++ r)) is ⟨p.reverse, blank k.text ++ r⟩ := by
  obtain ⟨is', h', his⟩ :=
    h.kept tailed_unescaped (continues_blank hr) (triviaEnd_comment_pos k hr) hp
  rwa [his (sameNext_blank hr)] at h'

/-- What is found differs only behind the comment. -/
theorem scan_blank_iff (hp : Unescaped p) (hr : k.Ends r)
    (h : Reached (p ++ (k.text ++ r)) is ⟨p.reverse, k.text ++ r⟩) :
    scan (p ++ (blank k.text ++ r)) = scan (p ++ (k.text ++ r)) ↔
      scanFrom ⟨(blank k.text).reverse ++ p.reverse, r⟩ =
        scanFrom ⟨k.text.reverse ++ p.reverse, r⟩ := by
  rw [scan_of_reached h, scan_of_reached (h.blanked hp hr), scanFrom_comment hr, scanFrom_blank,
    List.append_cancel_left_eq]

/-! ### What is looked up behind it -/

/-- A slash and a word mean the same behind the comment as before it. -/
structure Transparent (k : Comment) (b : Text) : Prop where
  slash : regexAllowed (k.text.reverse ++ b) = regexAllowed b
  word : lastSolid? (k.text.reverse ++ b) = some '.' ↔ lastSolid? b = some '.'

theorem dropWhile_spaces {s : Text} (hs : ∀ x ∈ s, isSpace x) (b : Text) :
    (s ++ b).dropWhile isSpace = b.dropWhile isSpace := List.dropWhile_append_of_pos hs

theorem isSpace_of_mem_reverse_blank {x : Char} (h : x ∈ (blank t).reverse) : isSpace x :=
  isSpace_of_mem_blank (List.mem_reverse.mp h)

theorem regexAllowed_blank (t b : Text) : regexAllowed ((blank t).reverse ++ b) = regexAllowed b := by
  rw [regexAllowed, dropWhile_spaces fun _ => isSpace_of_mem_reverse_blank, ← regexAllowed]

theorem lastSolid?_blank (t b : Text) : lastSolid? ((blank t).reverse ++ b) = lastSolid? b := by
  rw [lastSolid?, dropWhile_spaces fun _ => isSpace_of_mem_reverse_blank, ← lastSolid?]

theorem noWord_blank (h : t ≠ []) (b : Text) : NoWord ((blank t).reverse ++ b) := by
  obtain ⟨x, v, hv⟩ := List.exists_cons_of_ne_nil (List.reverse_ne_nil_iff.mpr (blank_ne_nil h))
  rw [hv, List.cons_append]
  exact noWord_cons (not_isWordChar_of_isSpace
    (isSpace_of_mem_reverse_blank (hv ▸ List.mem_cons_self))) _

/-- Behind a block comment, or behind the newline of a line comment, the scan goes on alike. -/
theorem scanFrom_transparent (hr : k.Ends r) (h : Transparent k b) :
    scanFrom ⟨(blank k.text).reverse ++ b, r⟩ = scanFrom ⟨k.text.reverse ++ b, r⟩ := by
  have hslash : regexAllowed ((blank k.text).reverse ++ b) = regexAllowed (k.text.reverse ++ b) :=
    (regexAllowed_blank _ b).trans h.slash.symm
  have hword : lastSolid? ((blank k.text).reverse ++ b) = some '.' ↔
      lastSolid? (k.text.reverse ++ b) = some '.' := by
    rw [lastSolid?_blank]
    exact h.word.symm
  have hbytes : Text.bytes ((blank k.text).reverse ++ b) = Text.bytes (k.text.reverse ++ b) := by
    simp only [Text.bytes_append, Text.bytes_reverse, bytes_blank]
  -- the two texts with `g` in front, from where no word goes on
  have htwin {g : Text} (hg : ∀ x ∈ g, isSpace x) (h1 : NoWord (g ++ ((blank k.text).reverse ++ b)))
      (h2 : NoWord (g ++ (k.text.reverse ++ b))) (t : Text) :
      scanFrom ⟨g ++ ((blank k.text).reverse ++ b), t⟩ =
        scanFrom ⟨g ++ (k.text.reverse ++ b), t⟩ := by
    have ht : Twin (g ++ ((blank k.text).reverse ++ b)) (g ++ (k.text.reverse ++ b)) := by
      refine ⟨alike_of_slash ?_ h1 h2, ?_⟩
      · rw [regexAllowed, regexAllowed, dropWhile_spaces hg, dropWhile_spaces hg]
        exact hslash
      · rw [lastSolid?, lastSolid?, dropWhile_spaces hg, dropWhile_spaces hg]
        exact hword
    obtain ⟨is, hi, hi'⟩ := ht.exists_scanFrom t
    rw [hi, hi', Text.bytes_append, hbytes, ← Text.bytes_append]
  cases k with
  | block s hs =>
    refine htwin (g := []) (by simp) (noWord_blank (Comment.text_ne_nil _) b) ?_ r
    rw [List.nil_append, Comment.text]
    simp only [List.reverse_cons, List.reverse_append, List.append_assoc]
    exact noWord_cons (by decide) _
  | line s hs =>
    cases r with
    | nil => rw [scanFrom_nil rfl, scanFrom_nil rfl]
    | cons x r =>
      obtain rfl : x = '\n' := hr x rfl
      rw [scanFrom_plain (by decide), scanFrom_plain (by decide)]
      exact htwin (g := ['\n']) (by simp [isSpace]) (noWord_cons (by decide) _)
        (noWord_cons (by decide) _) r

/-- **A comment behind which a slash and a word mean what they mean before it** may be overwritten with
blanks. -/
theorem scan_blanked (hp : Unescaped p) (hr : k.Ends r)
    (h : Reached (p ++ (k.text ++ r)) is ⟨p.reverse, k.text ++ r⟩)
    (ht : Transparent k p.reverse) :
    scan (p ++ (blank k.text ++ r)) = scan (p ++ (k.text ++ r)) :=
  (scan_blank_iff hp hr h).mpr (scanFrom_transparent hr ht)

/-! ### What may follow -/

/-- A slash before a backtick: a regular expression with an import behind it, or a division before a
template literal. -/
def slashProbe : Text := "/\x60/;import\x27x\x27".toList

theorem length_scanFrom_slashProbe (b : Text) :
    (scanFrom ⟨b, slashProbe⟩).length = if regexAllowed b then 1 else 0 := by
  have hcomment : commentEnd? (slashProbe.drop 1) = none := by decide
  have hread : Lexeme.read b '/' (slashProbe.drop 1) =
      if regexAllowed b then ⟨.regex, 2⟩ else .single := by
    have hend : regexEnd? false (slashProbe.drop 1) = some 2 := by decide
    have hflags : wordEnd ((slashProbe.drop 1).drop 2) = 0 := by decide
    rw [Lexeme.read, if_neg (by decide), Lexeme.readFlat, if_pos rfl, hcomment]
    dsimp only
    rw [hend]
    dsimp only
    rw [hflags]
  by_cases ha : regexAllowed b
  · rw [if_pos ha] at hread ⊢
    have hnext := scanFrom_other (c := ⟨b, slashProbe⟩) (x := '/') rfl hread (by decide)
    have hbehind := (twin_append (p := ['/', backtick, '/']) b [] ⟨'/', by decide, by decide⟩
      ⟨'/', rfl, by decide⟩).length_scanFrom (slashProbe.drop 3)
    rw [hnext]
    refine hbehind.trans ?_
    decide +kernel
  · rw [if_neg ha] at hread ⊢
    have hnext := scanFrom_other (c := ⟨b, slashProbe⟩) (x := '/') rfl hread (by decide)
    have hbehind := (twin_append (p := ['/']) b [] ⟨'/', by decide, by decide⟩
      ⟨'/', rfl, by decide⟩).length_scanFrom (slashProbe.drop 1)
    rw [hnext]
    refine hbehind.trans ?_
    decide +kernel

/-- An import, or a member and a string. -/
def wordProbe : Text := "import".toList ++ quoted '\x27' ['x']

theorem wordProbe_eq : wordProbe = "import".toList ++ quoted '\x27' ['x'] := rfl

theorem length_scanFrom_wordProbe (b : Text) :
    (scanFrom ⟨b, wordProbe⟩).length = if lastSolid? b = some '.' then 0 else 1 := by
  have hkey : IsWord "import".toList := ⟨by decide, by decide⟩
  have hin : Inside '\x27' ['x'] := ⟨by decide, by decide, by decide⟩
  have hno : NoWord (quoted '\x27' ['x']) := noWord_cons (by decide) _
  have hnil (b : Text) : scanFrom ⟨b, []⟩ = [] := scanFrom_nil rfl
  have hnone (b : Text) : scanFrom ⟨b, quoted '\x27' ['x']⟩ = [] := by
    rw [← List.append_nil (quoted '\x27' ['x']), scanFrom_quoted (by decide) hin, hnil]
  by_cases hb : lastSolid? b = some '.'
  · rw [if_pos hb, wordProbe_eq, scanFrom_member hkey hno hb, hnone, List.length_nil]
  · have hfound := scanFrom_import_quoted (g := []) (t := []) hb (by simp) (by decide) hin
    rw [List.nil_append, List.append_nil, hnil] at hfound
    rw [if_neg hb, wordProbe_eq, hfound]
    rfl

/-- **Only a transparent comment may be overwritten with blanks**, whatever follows it. -/
theorem blanked_iff (k : Comment) {r₀ : Text} (hp : Unescaped p) (h₀ : k.Ends r₀)
    (hr₀ : Reached (p ++ (k.text ++ r₀)) is ⟨p.reverse, k.text ++ r₀⟩) :
    (∀ r is, k.Ends r → Reached (p ++ (k.text ++ r)) is ⟨p.reverse, k.text ++ r⟩ →
      scan (p ++ (blank k.text ++ r)) = scan (p ++ (k.text ++ r))) ↔ Transparent k p.reverse := by
  constructor
  · intro h
    -- what is found in a probe, two lines behind the comment and behind its blanks
    have hprobe (t : Text) :
        (scanFrom ⟨'\n' :: '\n' :: ((blank k.text).reverse ++ p.reverse), t⟩).length =
          (scanFrom ⟨'\n' :: '\n' :: (k.text.reverse ++ p.reverse), t⟩).length := by
      have hends : k.Ends ('\n' :: '\n' :: t) := by
        cases k with
        | line s hs => exact fun x hx => (Option.some.inj hx).symm
        | block s hs => trivial
      obtain ⟨is', h', -⟩ := hr₀.kept tailed_unescaped (continues_newlines k r₀ t)
        (triviaEnd_comment_pos k h₀) hp
      have heq := (scan_blank_iff hp hends h').mp (h _ is' hends h')
      have hplain (b : Text) : scanFrom ⟨b, '\n' :: '\n' :: t⟩ = scanFrom ⟨'\n' :: '\n' :: b, t⟩ := by
        rw [scanFrom_plain (by decide), scanFrom_plain (by decide)]
      rw [hplain, hplain] at heq
      rw [heq]
    have hslash (b : Text) : regexAllowed ('\n' :: '\n' :: b) = regexAllowed b := rfl
    have hword (b : Text) : lastSolid? ('\n' :: '\n' :: b) = lastSolid? b := rfl
    constructor
    · have hs := hprobe slashProbe
      rw [length_scanFrom_slashProbe, length_scanFrom_slashProbe, hslash, hslash,
        regexAllowed_blank] at hs
      by_cases h1 : regexAllowed p.reverse <;> by_cases h2 : regexAllowed (k.text.reverse ++ p.reverse)
        <;> simp [h1, h2] at hs ⊢
    · have hw := hprobe wordProbe
      rw [length_scanFrom_wordProbe, length_scanFrom_wordProbe, hword, hword, lastSolid?_blank] at hw
      by_cases h1 : lastSolid? p.reverse = some '.' <;>
        by_cases h2 : lastSolid? (k.text.reverse ++ p.reverse) = some '.' <;> simp [h1, h2] at hw ⊢
  · exact fun h r is hr hreached => scan_blanked hp hr hreached h

/-- Behind a name, a slash divides, and behind a block comment as well. -/
theorem blanked_iff_division :
    let k : Comment := .block " a. ".toList (by decide)
    let p := "n ".toList
    Unescaped p ∧ Reached (p ++ (k.text ++ "/ 2".toList)) [] ⟨p.reverse, k.text ++ "/ 2".toList⟩ ∧
      ∀ r is, k.Ends r → Reached (p ++ (k.text ++ r)) is ⟨p.reverse, k.text ++ r⟩ →
        scan (p ++ (blank k.text ++ r)) = scan (p ++ (k.text ++ r)) := by
  intro k p
  have hp : Unescaped p := by
    unfold Unescaped
    decide
  have h1 : Turn (Cursor.start (p ++ (k.text ++ "/ 2".toList))) none
      ⟨['n'], ' ' :: (k.text ++ "/ 2".toList)⟩ :=
    ⟨'n', ' ' :: (k.text ++ "/ 2".toList), rfl, by decide +kernel⟩
  have h2 : Turn ⟨['n'], ' ' :: (k.text ++ "/ 2".toList)⟩ none
      ⟨p.reverse, k.text ++ "/ 2".toList⟩ := ⟨' ', k.text ++ "/ 2".toList, rfl, by decide +kernel⟩
  have hr : Reached (p ++ (k.text ++ "/ 2".toList)) [] ⟨p.reverse, k.text ++ "/ 2".toList⟩ :=
    (Reached.start.turn h1).turn h2
  exact ⟨hp, hr, (blanked_iff k hp trivial hr).mpr ⟨by decide, by decide⟩⟩

/-- A dot at the end of a comment makes the next word the name of a member. -/
theorem exists_opaque : ∃ (k : Comment) (r : Text),
    k.text ++ r = "// done.\nimport \x27x\x27\n".toList ∧ k.Ends r ∧
      Reached (k.text ++ r) [] ⟨[], k.text ++ r⟩ ∧ scan (k.text ++ r) = [] ∧
      scan (blank k.text ++ r) = [⟨16, 19, ['x'], .static⟩] := by
  refine ⟨.line " done.".toList (by decide), "\nimport \x27x\x27\n".toList, by decide, ?_, .start,
    by decide +kernel, by decide +kernel⟩
  exact fun x hx => (Option.some.inj hx).symm

end Unbundled.Import
