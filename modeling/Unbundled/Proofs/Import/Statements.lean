import Unbundled.Proofs.Import.Declarations
import Unbundled.Proofs.Source.Fillers

/-! # Static imports wherever the scan comes to them

A static import is the word `import`, a clause up to the word `from`, and a literal; the clause may be
missing together with `from`. White space and comments may stand between the tokens (`Filler`), and a
clause may be any sequence of words, stars, commas and brace lists, in which words are kept `Apart`.

One turn of the scan reads such a statement whole, whatever stands before and after it.

* `clause_of_tokens`: a clause is passed token by token, up to its `from`.
* `reached_statement`: exactly the literal of the statement is found, and the scan goes on behind it. -/

namespace Unbundled.Import

open Source

/-! ### Statements -/

/-- What may stand between two tokens: white space and closed comments. -/
structure Filler where
  text : Text
  filled : IsFiller text

/-- A token of a clause. -/
inductive Token
  | word (w : Text) (isWord : IsWord w)
  | star
  | comma
  /-- A brace list, up to its first closing brace. -/
  | list (l : Text) (closed : '\x7d' ∉ l)

namespace Token

def text : Token → Text
  | word w _ => w
  | star => ['*']
  | comma => [',']
  | list l _ => braces l

/-- Whether a token is a word, which must not touch another one. -/
def wordy : Token → Bool
  | word _ _ => true
  | star | comma | list _ _ => false

end Token

/-- The text of a clause: its tokens, each with what stands behind it. -/
def clauseText (ks : List (Token × Filler)) : Text := ks.flatMap fun k => k.1.text ++ k.2.text

/-- No word touches the next one; behind the last token stands the word `from`. -/
def Apart : List (Token × Filler) → Prop
  | [] => True
  | (k, f) :: ks => (k.wordy → ks.head?.all (·.1.wordy) → f.text ≠ []) ∧ Apart ks

/-- The keyword as a token. -/
def Token.keyword : Token := .word "import".toList ⟨by decide, by decide⟩

/-- A static import. -/
inductive Statement
  /-- `import l` -/
  | bare (gap : Filler) (l : Quoted)
  /-- `import ks from l` -/
  | bound (gap : Filler) (ks : List (Token × Filler)) (last : Filler) (l : Quoted)
      (apart : Apart ((.keyword, gap) :: ks))

namespace Statement

def literal : Statement → Quoted
  | bare _ l | bound _ _ _ l _ => l

/-- The text before the literal. -/
def head : Statement → Text
  | bare gap _ => "import".toList ++ gap.text
  | bound gap ks last _ _ =>
    "import".toList ++ (gap.text ++ (clauseText ks ++ ("from".toList ++ last.text)))

variable {gap last : Filler} {ks : List (Token × Filler)} {l : Quoted}

theorem head_bare : (bare gap l).head = "import".toList ++ gap.text := rfl

theorem head_bound {apart : Apart ((.keyword, gap) :: ks)} : (bound gap ks last l apart).head =
    "import".toList ++ (gap.text ++ (clauseText ks ++ ("from".toList ++ last.text))) := rfl

def text (s : Statement) : Text := s.head ++ s.literal.text

/-- The literal of a statement that starts at byte `n`, as an import. -/
def found (n : Nat) (s : Statement) : Import :=
  specifier .static (n + Text.bytes s.head) s.literal.quote s.literal.raw

end Statement

variable {b f r t u : Text} {x : Char} {k : Token} {ks : List (Token × Filler)} {kind : Kind}

/-! ### Fillers -/

theorem skipTrivia_filler (hf : IsFiller f) :
    skipTrivia ⟨b, f ++ t⟩ = skipTrivia ⟨f.reverse ++ b, t⟩ := by
  have hadv := @Cursor.advance_length ⟨b, f ++ t⟩ f t rfl
  rw [skipTrivia, triviaEnd_filler hf, ← Cursor.advance_advance, hadv, skipTrivia]

theorem skipTrivia_filler_solid (hf : IsFiller f) (hx : isSolid x) :
    skipTrivia ⟨b, f ++ x :: t⟩ = ⟨f.reverse ++ b, x :: t⟩ := by
  rw [skipTrivia_filler hf, skipTrivia_solid hx]

theorem clause_of_filler (hf : IsFiller f) :
    clause kind ⟨b, f ++ t⟩ = clause kind ⟨f.reverse ++ b, t⟩ := by
  rw [← clause_skipTrivia, skipTrivia_filler hf, clause_skipTrivia]

/-! ### Tokens -/

/-- A character after which the word `import` has a clause. -/
def Opens (x : Char) : Prop := isSolid x ∧ ¬ isQuote x ∧ x ≠ '(' ∧ x ≠ '.'

instance : DecidablePred Opens := fun x =>
  inferInstanceAs (Decidable (isSolid x ∧ ¬ isQuote x ∧ x ≠ '(' ∧ x ≠ '.'))

theorem opens_of_isWordStart (hx : isWordStart x) : Opens x := by
  have hw := isWordChar_of_isWordStart hx
  refine ⟨isSolid_of_isWordChar hw, fun hq => not_isWordChar_of_isQuote hq hw, ?_, ?_⟩ <;>
    · rintro rfl
      exact absurd hx (by decide)

theorem Token.exists_opens (k : Token) :
    ∃ x u, k.text = x :: u ∧ Opens x ∧ (k.wordy = false → ¬ isWordChar x) := by
  cases k with
  | word w hw =>
    obtain ⟨x, u, rfl, hx, -⟩ := hw.shape (t := []) (by simp [NoWord])
    exact ⟨x, u, rfl, opens_of_isWordStart hx, fun h => absurd h (by simp [wordy])⟩
  | star => exact ⟨'*', [], rfl, by decide, fun _ => by decide⟩
  | comma => exact ⟨',', [], rfl, by decide, fun _ => by decide⟩
  | list l _ => exact ⟨'\x7b', l ++ ['\x7d'], rfl, by decide, fun _ => by decide⟩

/-- What a clause and its `from` open with. -/
theorem exists_opens (ks : List (Token × Filler)) (r : Text) :
    ∃ x u, clauseText ks ++ ("from".toList ++ r) = x :: u ∧ Opens x ∧
      (ks.head?.all (·.1.wordy) = false → ¬ isWordChar x) := by
  cases ks with
  | nil => exact ⟨'f', "rom".toList ++ r, rfl, by decide, fun h => absurd h (by decide)⟩
  | cons k ks =>
    obtain ⟨x, u, hk, hx, hw⟩ := k.1.exists_opens
    refine ⟨x, u ++ (k.2.text ++ (clauseText ks ++ ("from".toList ++ r))), ?_, hx, hw⟩
    simp [clauseText, hk]

/-- Behind a word of a clause no word goes on. -/
theorem noWord_of_apart {g : Filler} (h : Apart ((k, g) :: ks)) (hk : k.wordy) (r : Text) :
    NoWord (g.text ++ (clauseText ks ++ ("from".toList ++ r))) := by
  by_cases hg : g.text = []
  · obtain ⟨x, u, hu, -, hw⟩ := exists_opens ks r
    have hnext : ks.head?.all (·.1.wordy) = false :=
      Bool.eq_false_iff.mpr fun hall => h.1 hk hall hg
    rw [hg, List.nil_append, hu]
    exact noWord_cons (hw hnext) u
  · exact g.filled.noWord hg _

/-- A clause goes on after a token that is not its last word `from`. -/
theorem clause_of_token (ht : k.wordy → NoWord t) (hq : atQuote (skipTrivia ⟨k.text.reverse ++ b, t⟩) = false) :
    clause kind ⟨b, k.text ++ t⟩ = clause kind ⟨k.text.reverse ++ b, t⟩ := by
  cases k with
  | word w hw => exact clause_of_word hw (ht rfl) fun _ => hq
  | star => exact clause_of_mark (by decide)
  | comma => exact clause_of_mark (by decide)
  | list l hl => exact clause_of_braces hl

/-- **A clause is passed token by token.** A word `from` in it is a name, since no literal follows. -/
theorem clause_of_tokens (h : Apart ks) (r : Text) :
    clause kind ⟨b, clauseText ks ++ ("from".toList ++ r)⟩ =
      clause kind ⟨(clauseText ks).reverse ++ b, "from".toList ++ r⟩ := by
  induction ks generalizing b with
  | nil => rfl
  | cons k ks ih =>
    obtain ⟨k, g⟩ := k
    obtain ⟨x, u, hu, ⟨hsolid, hquote, -⟩, -⟩ := exists_opens ks r
    have hsplit : clauseText ((k, g) :: ks) = k.text ++ (g.text ++ clauseText ks) := by
      simp [clauseText]
    have hq : atQuote (skipTrivia ⟨k.text.reverse ++ b,
        g.text ++ (clauseText ks ++ ("from".toList ++ r))⟩) = false := by
      rw [hu, skipTrivia_filler_solid g.filled hsolid]
      exact Bool.eq_false_iff.mpr hquote
    rw [hsplit, List.append_assoc, List.append_assoc,
      clause_of_token (fun hk => noWord_of_apart h hk r) hq, clause_of_filler g.filled, ih h.2]
    simp only [List.reverse_append, List.append_assoc]

/-! ### Statements in a source -/

theorem afterImport_bare (gap : Filler) (l : Quoted) (t : Text) :
    afterImport ⟨b, gap.text ++ (l.text ++ t)⟩ =
      (some (specifier .static (Text.bytes (gap.text.reverse ++ b)) l.quote l.raw),
        ⟨l.text.reverse ++ (gap.text.reverse ++ b), t⟩) := by
  have hskip : skipTrivia ⟨b, gap.text ++ (l.text ++ t)⟩ = ⟨gap.text.reverse ++ b, l.text ++ t⟩ := by
    rw [Quoted.text, quoted_append]
    exact skipTrivia_filler_solid gap.filled (isSolid_of_isQuote l.isQuote)
  have hquote : atQuote ⟨gap.text.reverse ++ b, l.text ++ t⟩ = true := by
    rw [Quoted.text, quoted_append]
    exact l.isQuote
  rw [afterImport, hskip]
  dsimp only
  rw [if_pos hquote]
  exact literalOrQuote_quoted .static l.isQuote l.inside

theorem afterImport_bound {gap last : Filler} (h : Apart ks) (l : Quoted) (t : Text)
    (hlast : NoWord (last.text ++ (l.text ++ t))) :
    afterImport ⟨b, gap.text ++ (clauseText ks ++ ("from".toList ++ (last.text ++ (l.text ++ t))))⟩ =
      (some (specifier .static (Text.bytes (last.text.reverse ++ ("from".toList.reverse ++
        ((clauseText ks).reverse ++ (gap.text.reverse ++ b))))) l.quote l.raw),
        ⟨l.text.reverse ++ (last.text.reverse ++ ("from".toList.reverse ++
          ((clauseText ks).reverse ++ (gap.text.reverse ++ b)))), t⟩) := by
  obtain ⟨x, u, hu, hx, -⟩ := exists_opens ks (last.text ++ (l.text ++ t))
  obtain ⟨hsolid, hquote, hparen, hdot⟩ := hx
  have hskip (b' : Text) : skipTrivia ⟨b', last.text ++ (l.text ++ t)⟩ =
      ⟨last.text.reverse ++ b', quoted l.quote l.raw ++ t⟩ := by
    rw [Quoted.text, quoted_append]
    exact skipTrivia_filler_solid last.filled (isSolid_of_isQuote l.isQuote)
  have hclause : afterImport ⟨b, gap.text ++ x :: u⟩ = clause .static ⟨gap.text.reverse ++ b, x :: u⟩ := by
    rw [afterImport, skipTrivia_filler_solid gap.filled hsolid]
    dsimp only
    rw [if_neg (show ¬ atQuote ⟨_, x :: u⟩ from hquote), if_neg (by simpa using hparen),
      if_neg (by simpa using hdot)]
  rw [hu, hclause, ← hu, clause_of_tokens h]
  exact clause_of_from hlast (hskip _) l.isQuote l.inside

/-- Behind a filler or a word, a literal goes on with no word. -/
theorem noWord_filler (g : Filler) (l : Quoted) (t : Text) : NoWord (g.text ++ (l.text ++ t)) := by
  by_cases hg : g.text = []
  · rw [hg]
    exact noWord_quoted l.isQuote l.raw t
  · exact g.filled.noWord hg _

/-- A statement is read in one turn. -/
theorem Statement.turn (s : Statement) (hb : lastSolid? b ≠ some '.') (t : Text) :
    Turn ⟨b, s.text ++ t⟩ (some (s.found (Text.bytes b))) ⟨s.text.reverse ++ b, t⟩ := by
  have hkey : IsWord "import".toList := ⟨by decide, by decide⟩
  have hword (r : Text) : afterWord "import".toList ⟨"import".toList.reverse ++ b, r⟩ =
      afterImport ⟨"import".toList.reverse ++ b, r⟩ := if_pos rfl
  cases s with
  | bare gap l =>
    have hturn := turn_word hkey (noWord_filler gap l t) hb
    have hbytes : Text.bytes (gap.text.reverse ++ ("import".toList.reverse ++ b)) =
        Text.bytes b + Text.bytes ("import".toList ++ gap.text) := by
      simp only [Text.bytes_append, Text.bytes_reverse]
      omega
    rw [hword, afterImport_bare, hbytes] at hturn
    simpa only [found, text, head_bare, literal, List.append_assoc, List.reverse_append] using hturn
  | bound gap ks last l apart =>
    have hno := noWord_of_apart apart rfl (last.text ++ (l.text ++ t))
    have hturn := turn_word hkey hno hb
    have hbytes : Text.bytes (last.text.reverse ++ ("from".toList.reverse ++
        ((clauseText ks).reverse ++ (gap.text.reverse ++ ("import".toList.reverse ++ b))))) =
        Text.bytes b + Text.bytes
          ("import".toList ++ (gap.text ++ (clauseText ks ++ ("from".toList ++ last.text)))) := by
      simp only [Text.bytes_append, Text.bytes_reverse]
      omega
    rw [hword, afterImport_bound apart.2 l t (noWord_filler last l t), hbytes] at hturn
    simpa only [found, text, head_bound, literal, List.append_assoc, List.reverse_append] using hturn

/-- **A static import is found wherever the scan comes to it.** If no dot stands before the place,
blanks aside, one turn of the scan finds the literal of the statement and nothing else, and the next
turn begins behind the literal. -/
theorem reached_statement {source : Text} {is : List Import} {c : Cursor} (s : Statement)
    (hr : Reached source is c) (hb : lastSolid? c.behind ≠ some '.') (hc : c.ahead = s.text ++ t) :
    Turn c (some (s.found c.offset)) ⟨s.text.reverse ++ c.behind, t⟩ ∧
      Reached source (is ++ [s.found c.offset]) ⟨s.text.reverse ++ c.behind, t⟩ ∧
      scan source = is ++ s.found c.offset :: scanFrom ⟨s.text.reverse ++ c.behind, t⟩ := by
  have hturn := s.turn hb t
  rw [← hc] at hturn
  have hnext := hr.turn hturn
  refine ⟨hturn, hnext, ?_⟩
  rw [scan_of_reached hnext, List.append_assoc]
  rfl

/-- Two words `from` that are names, no gap around the marks, and comments with marks in them. -/
def assorted : Statement :=
  .bound ⟨[' '], .space (by decide) .nil⟩
    [(.word "from".toList ⟨by decide, by decide⟩, ⟨[], .nil⟩),
      (.comma, ⟨"/*\x7d*/".toList, .block (s := ['\x7d']) (by decide) .nil⟩),
      (.list ['a'] (by decide), ⟨[], .nil⟩),
      (.star, ⟨"// \x27\n".toList, .line (s := [' ', '\x27']) (by decide) .nil⟩),
      (.word "from".toList ⟨by decide, by decide⟩, ⟨['\t'], .space (by decide) .nil⟩)]
    ⟨[], .nil⟩ ⟨'\x27', ['y'], by decide, ⟨by decide, by decide, by decide⟩⟩
    ⟨by decide, by decide, by decide, by decide, by decide, by decide, trivial⟩

theorem reached_statement_assorted :
    let source := "é;import from,/*\x7d*/\x7ba\x7d*// \x27\nfrom\tfrom\x27y\x27;".toList
    let c : Cursor := ⟨[';', 'é'], assorted.text ++ [';']⟩
    Reached source [] c ∧ lastSolid? c.behind ≠ some '.' ∧
      scan source = [⟨38, 41, ['y'], .static⟩] := by
  intro source c
  have h1 : Turn (Cursor.start source) none ⟨['é'], ';' :: (assorted.text ++ [';'])⟩ :=
    ⟨'é', ';' :: (assorted.text ++ [';']), by decide, by decide +kernel⟩
  have h2 : Turn ⟨['é'], ';' :: (assorted.text ++ [';'])⟩ none c :=
    ⟨';', assorted.text ++ [';'], rfl, by decide +kernel⟩
  have hr : Reached source [] c := (Reached.start.turn h1).turn h2
  have hscan := (reached_statement assorted hr (by decide) rfl).2.2
  refine ⟨hr, by decide, hscan.trans ?_⟩
  decide +kernel

end Unbundled.Import
