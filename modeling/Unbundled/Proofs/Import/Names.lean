import Unbundled.Proofs.Import.Reading
import Unbundled.Proofs.Source.Names

/-! # Names as the scan reads them

The scan knows ASCII words only. A name of other characters ends the clause that it stands in, its
rest is read as script, and if the rest ends with the word `import`, this word opens a clause of its
own. In a brace list nothing of this is seen, unless an escape in it holds a closing brace.

* `readOn_names`: the rest of a brace list is read as script at its closing brace at the latest.
* `readOn_name`: how the scan reads on after a name. -/

namespace Unbundled.Import

open Source

variable {b t u w l : Text} {x y : Char} {m : Reading}

/-! ### Words and strays -/

/-- A character before which a keyword leads to no literal, argument or member, and to no exported
list. -/
def isMild (x : Char) : Bool :=
  !isQuote x && x != '(' && x != '.' && x != '*' && x != '\x7b'

/-- How the scan reads on after a word before something mild. -/
def Reading.word (m : Reading) (w : Text) : Reading :=
  if m = .script ∧ w = "import".toList then .clause .static else m

theorem readOn_word (hw : IsWord w) (ht : NoWord t) (hb : lastSolid? b ≠ some '.') (h : Next t x)
    (hx : isMild x) : readOn m ⟨b, w ++ t⟩ = readOn (m.word w) ⟨w.reverse ++ b, t⟩ := by
  simp only [isMild, Bool.and_eq_true, Bool.not_eq_true', bne_iff_ne, ne_eq] at hx
  obtain ⟨⟨⟨⟨hq, hp⟩, hd⟩, hs⟩, hl⟩ := hx
  cases m with
  | clause kind =>
    have hm : Reading.word (.clause kind) w = .clause kind := if_neg fun h => nomatch h.1
    rw [hm]
    exact clause_word hw ht fun _ => by rw [h.atQuote_eq, hq]
  | script =>
    by_cases h1 : w = "import".toList
    · subst h1
      exact scanFrom_import ht hb h ⟨by simp [hq], hp, hd⟩
    · have hm : Reading.word .script w = .script := if_neg fun h => h1 h.2
      rw [hm]
      by_cases h2 : w = "export".toList
      · subst h2
        exact scanFrom_export_other ht hb h (by simp [hs, hl])
      · exact scanFrom_name hw ht h1 h2

/-- A character that the script passes and a clause cannot hold. -/
def isStray (x : Char) : Bool :=
  isPlain x && !isSpace x && x != '*' && x != ',' && x != '\x7b'

theorem isPlain_of_isStray (h : isStray x) : isPlain x := by
  simp only [isStray, Bool.and_eq_true] at h
  exact h.1.1.1.1

theorem isSolid_of_isStray (h : isStray x) : isSolid x := by
  refine isSolid_of_isPlain (isPlain_of_isStray h) ?_
  simp only [isStray, Bool.and_eq_true, Bool.not_eq_true'] at h
  rw [h.1.1.1.2]
  decide

/-- A stray character is read as script. -/
theorem readOn_stray (hx : isStray x) : readOn m ⟨b, x :: t⟩ = scanFrom ⟨b, x :: t⟩ := by
  cases m with
  | script => rfl
  | clause kind =>
    have hs := isSolid_of_isStray hx
    have hp := isPlain_of_isStray hx
    simp only [isStray, Bool.and_eq_true, Bool.not_eq_true', bne_iff_ne, ne_eq] at hx
    obtain ⟨⟨⟨-, h1⟩, h2⟩, h3⟩ := hx
    simp only [isPlain, Bool.and_eq_true, Bool.not_eq_true'] at hp
    exact clause_stop hs h3 (by simp [h1, h2]) (by simp [hp.2])

/-- A stray character is passed. -/
theorem readOn_pass (hx : isStray x) : readOn m ⟨b, x :: t⟩ = scanFrom ⟨x :: b, t⟩ := by
  rw [readOn_stray hx, scanFrom_plain (isPlain_of_isStray hx)]

/-! ### The character behind -/

theorem lastSolid?_cons (hx : x ≠ '.') (hb : lastSolid? b ≠ some '.') :
    lastSolid? (x :: b) ≠ some '.' := by
  unfold lastSolid? at hb ⊢
  by_cases hs : isSpace x
  · rwa [List.dropWhile_cons_of_pos hs]
  · rw [List.dropWhile_cons_of_neg hs]
    simpa using hx

theorem lastSolid?_append (hw : '.' ∉ w) (hb : lastSolid? b ≠ some '.') :
    lastSolid? (w.reverse ++ b) ≠ some '.' := by
  induction w generalizing b with
  | nil => exact hb
  | cons x w ih =>
    rw [List.mem_cons, not_or] at hw
    rw [List.reverse_cons, List.append_assoc, List.singleton_append]
    exact ih hw.2 (lastSolid?_cons (Ne.symm hw.1) hb)

/-! ### Spelled texts -/

theorem ne_of_isListChar {a : Char} (h : isListChar x) (ha : isListChar a = false) : x ≠ a := by
  rintro rfl
  exact absurd h (by rw [ha]; decide)

theorem not_isQuote_of_isListChar (h : isListChar x) : ¬ isQuote x := by
  intro hq
  rcases isQuote_iff.mp hq with rfl | rfl <;> exact absurd h (by decide)

theorem isMild_of_isListChar (h : isListChar x) : isMild x := by
  have hq := not_isQuote_of_isListChar h
  have h1 : x ≠ '(' := ne_of_isListChar h (by decide)
  have h2 : x ≠ '.' := ne_of_isListChar h (by decide)
  have h3 : x ≠ '*' := ne_of_isListChar h (by decide)
  have h4 : x ≠ '\x7b' := ne_of_isListChar h (by decide)
  simp [isMild, *]

theorem isSolid_of_isListChar (h : isListChar x) (hs : ¬ isSpace x) : isSolid x := by
  have hx : x ≠ '/' := ne_of_isListChar h (by decide)
  simp [isSolid, hs, hx]

/-- A character of a list that is neither white space, a comma nor the start of a word is stray. -/
theorem isStray_of_isListChar (h : isListChar x) (hs : ¬ isSpace x) (hc : x ≠ ',')
    (hw : ¬ isWordStart x) : isStray x := by
  have hq := not_isQuote_of_isListChar h
  have h1 : x ≠ '/' := ne_of_isListChar h (by decide)
  have h2 : x ≠ backtick := ne_of_isListChar h (by decide)
  have h3 : x ≠ '*' := ne_of_isListChar h (by decide)
  have h4 : x ≠ '\x7b' := ne_of_isListChar h (by decide)
  simp [isStray, isPlain, *]

theorem isListChar_of_isWordChar (h : isWordChar x) : isListChar x := by simp [isListChar, h]

theorem isStray_of_isWordChar (h : isWordChar x) (hw : ¬ isWordStart x) : isStray x := by
  have hs : ¬ isSpace x := fun hs => not_isWordChar_of_isSpace hs h
  have hc : x ≠ ',' := by rintro rfl; exact absurd h (by decide)
  exact isStray_of_isListChar (isListChar_of_isWordChar h) hs hc hw

/-- The number in an escape is passed up to its closing brace. -/
theorem scanFrom_hex (hh : ∀ x ∈ l, isHex x) :
    scanFrom ⟨b, l ++ '\x7d' :: t⟩ = scanFrom ⟨'\x7d' :: (l.reverse ++ b), t⟩ := by
  induction l generalizing b with
  | nil => exact scanFrom_plain (by decide)
  | cons x l ih =>
    by_cases hx : isWordStart x
    · have hchars : (x :: l).all isWordChar :=
        List.all_eq_true.mpr fun y hy => isWordChar_of_isHex (hh y hy)
      have hw : IsWord (x :: l) := ⟨hx, hchars⟩
      have hk : ∀ k : Text, k.any (fun y => !isHex y) → x :: l ≠ k := by
        rintro k hk rfl
        obtain ⟨y, hy, hn⟩ := List.any_eq_true.mp hk
        rw [hh y hy] at hn
        exact absurd hn (by decide)
      have ht : NoWord ('\x7d' :: t) := noWord_cons (by decide) t
      rw [scanFrom_name hw ht (hk _ (by decide)) (hk _ (by decide)), scanFrom_plain (by decide)]
    · have hc := isWordChar_of_isHex (hh x List.mem_cons_self)
      have hs := isPlain_of_isStray (isStray_of_isWordChar hc hx)
      rw [List.cons_append, scanFrom_plain hs, ih fun y hy => hh y (List.mem_cons_of_mem x hy),
        List.reverse_cons, List.append_assoc, List.singleton_append]

theorem dot_not_mem_point (hh : ∀ x ∈ l, isHex x) : '.' ∉ point l := by
  have hl : '.' ∉ l := fun h => absurd (hh _ h) (by decide)
  simp [point, hl]

/-- An escape in braces is read as script, and passed. -/
theorem readOn_point (hh : ∀ x ∈ l, isHex x) :
    readOn m ⟨b, point l ++ t⟩ = scanFrom ⟨(point l).reverse ++ b, t⟩ := by
  have hu := @noWord_cons '\x7b' (by decide) (l ++ '\x7d' :: t)
  have hword := @scanFrom_name ('\\' :: b) ['u'] _ ⟨by decide, by decide⟩ hu (by decide) (by decide)
  have hrev : (point l).reverse ++ b = '\x7d' :: (l.reverse ++ '\x7b' :: 'u' :: '\\' :: b) := by
    simp [point]
  rw [point_append, hrev, readOn_pass (by decide)]
  exact hword.trans ((scanFrom_plain (by decide)).trans (scanFrom_hex hh))

theorem isListChar_of_spelled (h : Spelled isSeparator (x :: t)) : isListChar x ∨ x = '\\' := by
  cases h with
  | char hx _ => exact Or.inl hx
  | unit => exact Or.inr rfl
  | point => exact Or.inr rfl

theorem isMild_of_spelled (h : Spelled isSeparator (x :: t)) : isMild x := by
  rcases isListChar_of_spelled h with h | rfl
  · exact isMild_of_isListChar h
  · decide

/-- What comes next in a list is mild. -/
theorem exists_next (h : Spelled isSeparator l) (t : Text) :
    ∃ y, Next (l ++ '\x7d' :: t) y ∧ isMild y := by
  induction h with
  | nil => exact ⟨'\x7d', next_cons (by decide) t, by decide⟩
  | @char x l hx hl ih =>
    by_cases hs : isSpace x
    · obtain ⟨y, hy, hm⟩ := ih
      refine ⟨y, next_gap (g := [x]) ?_ hy, hm⟩
      intro z hz
      rwa [List.mem_singleton.mp hz]
    · exact ⟨x, next_cons (isSolid_of_isListChar hx hs) _, isMild_of_isListChar hx⟩
  | unit => exact ⟨'\\', next_cons (by decide) _, by decide⟩
  | point => exact ⟨'\\', next_cons (by decide) _, by decide⟩

theorem isListChar_of_mem (h : Spelled isSeparator l) (hx : x ∈ l) :
    isListChar x ∨ x ∈ ['\\', '\x7b', '\x7d'] := by
  induction h with
  | nil => exact absurd hx List.not_mem_nil
  | char hy _ ih =>
    rcases List.mem_cons.mp hx with rfl | hx
    · exact Or.inl hy
    · exact ih hx
  | unit hh _ _ ih =>
    simp only [List.mem_cons, List.mem_append] at hx
    rcases hx with rfl | rfl | hx | hx
    · exact Or.inr (by decide)
    · exact Or.inl (by decide)
    · exact Or.inl (isListChar_of_isWordChar (isWordChar_of_isHex (hh x hx)))
    · exact ih hx
  | point hh _ _ ih =>
    simp only [List.mem_cons, List.mem_append] at hx
    rcases hx with rfl | rfl | rfl | hx | rfl | hx
    · exact Or.inr (by decide)
    · exact Or.inl (by decide)
    · exact Or.inr (by decide)
    · exact Or.inl (isListChar_of_isWordChar (isWordChar_of_isHex (hh x hx)))
    · exact Or.inr (by decide)
    · exact ih hx

theorem dot_not_mem (h : Spelled isSeparator l) : '.' ∉ l := by
  intro hx
  rcases isListChar_of_mem h hx with hx | hx
  · exact absurd hx (by decide)
  · exact absurd hx (by decide)

/-- **The end of a brace list.** Wherever the scan is in a list, and however it reads, it reads
script after the closing brace. -/
theorem readOn_names (h : Spelled isSeparator l) (hb : lastSolid? b ≠ some '.') (m : Reading)
    (t : Text) : readOn m ⟨b, l ++ '\x7d' :: t⟩ = scanFrom ⟨'\x7d' :: (l.reverse ++ b), t⟩ := by
  generalize hn : l.length = n
  -- The induction covers every reading, since a keyword in the list may change it.
  induction n using Nat.strongRecOn generalizing l b m with
  | ind n ih =>
    cases h with
    | nil => exact readOn_pass (by decide)
    | @char x u hx hu =>
      have hlt : u.length < n := by rw [← hn]; exact Nat.lt_succ_self _
      have hd : x ≠ '.' := ne_of_isListChar hx (by decide)
      have hnext := fun m' => ih _ hlt hu (lastSolid?_cons hd hb) m' rfl
      by_cases hw : isWordStart x
      · obtain ⟨w, v, hwv, hword, hno, hv⟩ := (Spelled.char hx hu).exists_word hw
        obtain ⟨y, hy, hm⟩ := exists_next hv t
        have hlt : v.length < n := by
          have := hword.length_pos
          rw [← hn, hwv, List.length_append]
          omega
        have hw : '.' ∉ w := hword.not_mem (by decide)
        have hv := ih _ hlt hv (lastSolid?_append hw hb) (m.word w) rfl
        rw [hwv, List.append_assoc, List.reverse_append, List.append_assoc,
          readOn_word hword (hno.append (noWord_cons (by decide) t)) hb hy hm, hv]
      rw [List.reverse_cons, List.append_assoc, List.singleton_append]
      by_cases hs : isSpace x
      · exact (readOn_gap (g := [x]) (by simpa using hs)).trans (hnext m)
      by_cases hc : x = ','
      · exact (readOn_mark (by simp [hc])).trans (hnext m)
      · exact (readOn_pass (isStray_of_isListChar hx hs hc hw)).trans (hnext .script)
    | @unit h u hh hl hu =>
      have hspelled := hu.after_backslash hh
      have hlt : ('u' :: (h ++ u)).length < n := by rw [← hn]; exact Nat.lt_succ_self _
      have hnext := ih _ hlt hspelled (lastSolid?_cons (x := '\\') (by decide) hb) .script rfl
      rw [List.reverse_cons, List.append_assoc, List.singleton_append]
      exact (readOn_pass (by decide)).trans hnext
    | @point h u hh _ hu =>
      have hlt : u.length < n := by
        rw [← hn]
        simp only [List.length_cons, List.length_append]
        omega
      have hb' := lastSolid?_append (dot_not_mem_point hh) hb
      rw [← point_append, List.append_assoc, readOn_point hh, List.reverse_append,
        List.append_assoc]
      exact ih _ hlt hu hb' .script rfl

/-- How the scan reads on after a brace list. -/
def Reading.list (m : Reading) (l : Text) : Reading := if '\x7d' ∈ l then .script else m

theorem readOn_braces (h : Spelled isSeparator l) (hb : lastSolid? b ≠ some '.') :
    readOn m ⟨b, braces l ++ t⟩ = readOn (m.list l) ⟨(braces l).reverse ++ b, t⟩ := by
  have hrev : (braces l).reverse ++ b = '\x7d' :: (l.reverse ++ '\x7b' :: b) := by simp [braces]
  have hb1 : lastSolid? ('\x7b' :: b) ≠ some '.' := lastSolid?_cons (by decide) hb
  cases m with
  | script =>
    have hm : Reading.script.list l = .script := ite_self _
    rw [hm, hrev, braces_append]
    exact (scanFrom_plain (by decide)).trans (readOn_names h hb1 .script t)
  | clause kind =>
    by_cases hl : '\x7d' ∈ l
    · obtain ⟨u, v, rfl, hu, hv⟩ := h.exists_brace hl
      have hm : (Reading.clause kind).list (u ++ '\x7d' :: v) = .script := if_pos hl
      have hsplit : braces (u ++ '\x7d' :: v) ++ t = braces u ++ (v ++ '\x7d' :: t) := by
        simp [braces]
      have hdot : '.' ∉ braces u := by
        have := dot_not_mem h
        simp only [List.mem_append, not_or] at this
        simp [braces, this.1]
      rw [hm, hsplit, clause_braces hu, readOn_names hv (lastSolid?_append hdot hb)]
      simp [braces, readOn_script]
    · have hm : (Reading.clause kind).list l = .clause kind := if_neg hl
      rw [hm, clause_braces hl]

/-! ### Names -/

/-- A name: it does not open with a digit, and it is not the keyword `import`. -/
structure Name where
  text : Text
  spelled : Spelled noSeparator text
  ne_nil : text ≠ []
  opens : ∀ x ∈ text.head?, ¬ x.isDigit
  ne_import : text ≠ "import".toList

/-- The scan takes the whole name for a word. -/
def Name.plain (x : Name) : Bool := x.text.all isWordChar

/-- The scan takes the end of the name for the word `import`. -/
def Name.imports (x : Name) : Bool := lastWord x.text = "import".toList

/-- How the scan reads on after a name. -/
def Reading.name (m : Reading) (x : Name) : Reading :=
  if x.plain then m else if x.imports then .clause .static else .script

theorem isStray_of_spelled (h : Spelled noSeparator (x :: t)) (hx : ¬ isWordStart x) :
    isStray x := by
  cases h with
  | char hc _ =>
    simp only [noSeparator, Bool.or_false, Bool.or_eq_true] at hc
    rcases hc with hc | hc
    · exact isStray_of_isWordChar hc hx
    · have hs : ¬ isSpace x := by
        intro hs
        rcases isSpace_iff.mp hs with rfl | rfl | rfl | rfl | rfl <;> exact absurd hc (by decide)
      have hcomma : x ≠ ',' := by rintro rfl; exact absurd hc (by decide)
      exact isStray_of_isListChar (by simp [isListChar, hc]) hs hcomma hx
  | unit => decide
  | point => decide

theorem Reading.word_nil (m : Reading) : m.word [] = m := if_neg fun h => absurd h.2 (by decide)

/-- A word at the start of a name that goes on: what comes next is read as script. -/
theorem readOn_word_spelled (hw : IsWord w) (hno : NoWord (x :: u)) (hb : lastSolid? b ≠ some '.')
    (h : Spelled noSeparator (x :: u)) :
    readOn m ⟨b, w ++ (x :: u ++ t)⟩ = scanFrom ⟨w.reverse ++ b, x :: u ++ t⟩ := by
  have hx : ¬ isWordChar x := hno x rfl
  have hs : isStray x := isStray_of_spelled h fun hw => hx (isWordChar_of_isWordStart hw)
  have hnext : Next (x :: (u ++ t)) x := next_cons (isSolid_of_isStray hs) _
  rw [List.cons_append, readOn_word hw (noWord_cons hx _) hb hnext (isMild_of_spelled h.list)]
  exact readOn_stray hs

/-- A name in the script. Only its last word can matter, since a word within it is followed by
something that opens no clause. -/
theorem scanFrom_spelled (h : Spelled noSeparator l) (hb : lastSolid? b ≠ some '.') (ht : NoWord t)
    (hy : Next t y) (hm : isMild y) :
    scanFrom ⟨b, l ++ t⟩ = readOn (Reading.word .script (lastWord l)) ⟨l.reverse ++ b, t⟩ := by
  generalize hn : l.length = n
  induction n using Nat.strongRecOn generalizing l b with
  | ind n ih =>
    cases h with
    | nil => rw [lastWord, Reading.word_nil]; rfl
    | @char x u hx hu =>
      have h := Spelled.char hx hu
      by_cases hw : isWordStart x
      · obtain ⟨w, v, hwv, hword, hno, hv⟩ := h.exists_word hw
        have hb' := lastSolid?_append (hword.not_mem (x := '.') (by decide)) hb
        rw [hwv]
        cases v with
        | nil =>
          rw [List.append_nil, lastWord_of_isWord hword]
          exact readOn_word (m := .script) hword ht hb hy hm
        | cons z v =>
          have hlt : (z :: v).length < n := by
            have := hword.length_pos
            rw [← hn, hwv, List.length_append]
            omega
          have hz : ¬ isWordChar z := hno z rfl
          have hfirst := readOn_word_spelled (m := .script) (t := t) hword hno hb hv
          rw [List.append_assoc, lastWord_append hz, List.reverse_append, List.append_assoc,
            ← ih _ hlt hv hb' rfl]
          exact hfirst
      · have hs := isStray_of_spelled h hw
        have hd : x ≠ '.' := by rintro rfl; exact absurd hx (by decide)
        have hlt : u.length < n := by rw [← hn]; exact Nat.lt_succ_self _
        rw [lastWord_cons hw, List.reverse_cons, List.append_assoc, List.singleton_append,
          ← ih _ hlt hu (lastSolid?_cons hd hb) rfl]
        exact readOn_pass (m := .script) hs
    | @unit h u hh _ hu =>
      have hspelled := hu.after_backslash hh
      have hlt : ('u' :: (h ++ u)).length < n := by rw [← hn]; exact Nat.lt_succ_self _
      have hb' : lastSolid? ('\\' :: b) ≠ some '.' := lastSolid?_cons (by decide) hb
      rw [lastWord_cons (by decide), List.reverse_cons, List.append_assoc, List.singleton_append,
        ← ih _ hlt hspelled hb' rfl]
      exact readOn_pass (m := .script) (by decide)
    | @point h u hh _ hu =>
      have hlt : u.length < n := by
        rw [← hn]
        simp only [List.length_cons, List.length_append]
        omega
      have hb' := lastSolid?_append (dot_not_mem_point hh) hb
      rw [← point_append, lastWord_point, List.append_assoc, List.reverse_append, List.append_assoc,
        ← ih _ hlt hu hb' rfl]
      exact readOn_point (m := .script) hh

theorem isWordStart_of_isWordChar (h : isWordChar x) (hd : ¬ x.isDigit) : isWordStart x := by
  simp only [isWordChar, Char.isAlphanum, Bool.or_eq_true] at h
  simp only [isWordStart, Bool.or_eq_true]
  tauto

/-- A name that is no word is read as script. -/
theorem readOn_no_word (h : Spelled noSeparator l) (ho : ∀ x ∈ l.head?, ¬ x.isDigit)
    (hn : ¬ l.all isWordChar) (hb : lastSolid? b ≠ some '.') :
    readOn m ⟨b, l ++ t⟩ = scanFrom ⟨b, l ++ t⟩ := by
  cases l with
  | nil => exact absurd rfl hn
  | cons x u =>
    by_cases hw : isWordStart x
    · obtain ⟨w, v, hwv, hword, hno, hv⟩ := h.exists_word hw
      rw [hwv, List.append_assoc]
      cases v with
      | nil =>
        rw [List.append_nil] at hwv
        exact absurd (hwv ▸ hword.chars) hn
      | cons z v =>
        have h1 := readOn_word_spelled (m := m) (t := t) hword hno hb hv
        have h2 := readOn_word_spelled (m := .script) (t := t) hword hno hb hv
        exact h1.trans h2.symm
    · exact readOn_stray (isStray_of_spelled h hw)

theorem Name.isWord {x : Name} (h : x.plain) : IsWord x.text := by
  refine ⟨?_, h⟩
  obtain ⟨z, u, hz⟩ := List.exists_cons_of_ne_nil x.ne_nil
  have hd := x.opens z (by rw [hz]; rfl)
  have hw := List.all_eq_true.mp h z (by rw [hz]; exact List.mem_cons_self)
  rw [hz]
  exact isWordStart_of_isWordChar hw hd

theorem Name.imports_of_plain {x : Name} (h : x.plain) : x.imports = false := by
  rw [Name.imports, lastWord_of_isWord (Name.isWord h), decide_eq_false_iff_not]
  exact x.ne_import

/-- **How the scan reads on after a name.** -/
theorem readOn_name (x : Name) (hb : lastSolid? b ≠ some '.') (ht : NoWord t) (hy : Next t y)
    (hm : isMild y) : readOn m ⟨b, x.text ++ t⟩ = readOn (m.name x) ⟨x.text.reverse ++ b, t⟩ := by
  by_cases hp : x.plain
  · have hmode : m.name x = m.word x.text := by
      rw [Reading.name, if_pos hp, Reading.word, if_neg fun h => x.ne_import h.2]
    rw [hmode]
    exact readOn_word (Name.isWord hp) ht hb hy hm
  · have hmode : m.name x = Reading.word .script (lastWord x.text) := by
      rw [Reading.name, if_neg hp]
      by_cases hi : lastWord x.text = "import".toList
      · have hx : x.imports := decide_eq_true hi
        rw [if_pos hx]
        exact (if_pos ⟨rfl, hi⟩).symm
      · have hx : ¬ x.imports := fun h => hi (of_decide_eq_true h)
        rw [if_neg hx]
        exact (if_neg fun h => hi h.2).symm
    rw [hmode, ← scanFrom_spelled x.spelled hb ht hy hm]
    exact readOn_no_word x.spelled x.opens hp hb

end Unbundled.Import
