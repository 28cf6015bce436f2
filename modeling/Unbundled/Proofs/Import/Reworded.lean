import Unbundled.Proofs.Import.Elsewhere
import Unbundled.Proofs.Import.Tidy

/-! # Texts with other literals

A text is reworded by putting other string literals in the place of those that the scan has found
(`Reworded`). The scan then finds the new literals and nothing else (`scanFrom_eq_of_beside`), if the
text is tidy: every string and every regular expression that the scan opens is closed (`Tidy`). A quote
or a slash that stands for itself because nothing closes it could be closed by a new literal.

The two scans go side by side (`Beside`). What has been passed is such that a slash, a word and a dot
mean the same behind it, and what is ahead is the same up to the next literal that is found. A reader
that ends before this literal ends at the same place in both texts, and one that reads it reads the
other one in the other text; the lemmas `beside_…` say so for each reader. -/

namespace Unbundled.Import

open Source

variable {b b' g rest t t' : Text} {c c' : Cursor} {is is' : List Import} {k m n : Nat} {kind : Kind}
  {q q' x : Char} {raw raw' : Text}

/-! ### Texts with other literals -/

/-- The text `t`, which starts at byte `m`, with other literals in the place of those of the imports
`is`: this gives the text `t'`, which starts at byte `n`, and the imports `is'`. -/
inductive Reworded : Nat → Text → List Import → Nat → Text → List Import → Prop
  | done (m n : Nat) (t : Text) : Reworded m t [] n t []
  | literal {m n : Nat} {rest rest' raw raw' : Text} {q q' : Char} {is is' : List Import} (gap : Text)
      (kind : Kind) : isQuote q → isQuote q' → Inside q' raw' →
      Reworded (m + Text.bytes (gap ++ quoted q raw)) rest is
        (n + Text.bytes (gap ++ quoted q' raw')) rest' is' →
      Reworded m (gap ++ (quoted q raw ++ rest)) (specifier kind (m + Text.bytes gap) q raw :: is)
        n (gap ++ (quoted q' raw' ++ rest')) (specifier kind (n + Text.bytes gap) q' raw' :: is')

theorem Reworded.after (g : Text)
    (h : Reworded (m + Text.bytes g) t is (n + Text.bytes g) t' is') :
    Reworded m (g ++ t) is n (g ++ t') is' := by
  generalize hm : m + Text.bytes g = m' at h
  generalize hn : n + Text.bytes g = n' at h
  cases h with
  | done => exact .done _ _ _
  | literal gap kind hq hq' hin h =>
    subst hm hn
    have h' := Reworded.literal (m := m) (n := n) (g ++ gap) kind hq hq' hin
      (by simpa only [Text.bytes_append, Nat.add_assoc, List.append_assoc] using h)
    simpa only [Text.bytes_append, Nat.add_assoc, List.append_assoc] using h'

/-- What ends before the imports lies in the text before the first literal. -/
theorem length_le_of_bytes_take (hs : rest ≠ [])
    (h : Text.bytes ((g ++ rest).take k) ≤ Text.bytes g) : k ≤ g.length := by
  by_contra hk
  obtain ⟨j, rfl⟩ := Nat.exists_eq_add_of_lt (Nat.lt_of_not_le hk)
  rw [Nat.add_assoc, List.take_length_add_append, Text.bytes_append] at h
  have hne : rest.take (j + 1) ≠ [] := by
    rw [Ne, List.take_eq_nil_iff]
    exact fun hn => hn.elim (Nat.succ_ne_zero j) hs
  have := Text.bytes_pos hne
  omega

theorem quoted_append_ne_nil (q : Char) (raw rest : Text) : quoted q raw ++ rest ≠ [] := by
  rw [quoted_append]
  exact List.cons_ne_nil _ _

theorem Reworded.le_start (h : Reworded m t is n t' is') : ∀ i ∈ is, m ≤ i.start := by
  induction h with
  | done => exact fun i hi => absurd hi List.not_mem_nil
  | literal gap kind _ _ _ _ ih =>
    rw [List.forall_mem_cons]
    exact ⟨Nat.le_add_right _ _, fun i hi => (Nat.le_add_right _ _).trans (ih i hi)⟩

/-- Without imports both texts are the same. -/
theorem Reworded.eq_of_nil (h : Reworded m t [] n t' is') : t' = t ∧ is' = [] := by
  cases h with
  | done => exact ⟨rfl, rfl⟩

/-- Up to the first literal both texts are the same. -/
theorem Reworded.alongside (h : Reworded m t is n t' is')
    (hle : ∀ i ∈ is, m + Text.bytes (t.take k) ≤ i.start) : Alongside k t t' := by
  cases h with
  | done => exact Or.inl rfl
  | @literal _ _ rest rest' raw raw' q q' _ _ gap kind hq hq' hin h =>
    have hk := length_le_of_bytes_take (quoted_append_ne_nil q raw rest)
      (Nat.le_of_add_le_add_left (hle _ List.mem_cons_self))
    exact Or.inr ⟨gap, q, _, q', _, hk, hq, hq', by rw [quoted_append], by rw [quoted_append]⟩

/-- What is passed before the first literal may be left out. -/
theorem Reworded.drop (h : Reworded m t is n t' is')
    (hle : ∀ i ∈ is, m + Text.bytes (t.take k) ≤ i.start) :
    Reworded (m + Text.bytes (t.take k)) (t.drop k) is
      (n + Text.bytes (t'.take k)) (t'.drop k) is' := by
  cases h with
  | done => exact .done _ _ _
  | @literal _ _ rest rest' raw raw' q q' _ _ gap kind hq hq' hin h =>
    have hk := length_le_of_bytes_take (quoted_append_ne_nil q raw rest)
      (Nat.le_of_add_le_add_left (hle _ List.mem_cons_self))
    have hsplit : Text.bytes gap = Text.bytes (gap.take k) + Text.bytes (gap.drop k) := by
      rw [← Text.bytes_append, List.take_append_drop]
    rw [List.take_append_of_le_length hk, List.take_append_of_le_length hk,
      List.drop_append_of_le_length hk, List.drop_append_of_le_length hk]
    have h' := Reworded.literal (m := m + Text.bytes (gap.take k)) (n := n + Text.bytes (gap.take k))
      (gap.drop k) kind hq hq' hin
      (by simpa only [Text.bytes_append, hsplit, Nat.add_assoc] using h)
    simpa only [hsplit, Nat.add_assoc] using h'

/-! ### Two scans side by side -/

/-- Two quotes are alike for what follows them. -/
theorem twin_quote (hq : isQuote q) (hq' : isQuote q') (b b' : Text) : Twin (q :: b) (q' :: b') where
  toAlike := by
    refine alike_of_slash ?_ (noWord_of_isQuote hq b) (noWord_of_isQuote hq' b')
    have hslash {y : Char} (hy : isQuote y) (d : Text) : regexAllowed (y :: d) = false := by
      rcases isQuote_iff.mp hy with rfl | rfl <;> rfl
    rw [hslash hq, hslash hq']
  dot := by
    have hdot {y : Char} (hy : isQuote y) (d : Text) : lastSolid? (y :: d) ≠ some '.' := by
      rcases isQuote_iff.mp hy with rfl | rfl <;> exact fun h => absurd (Option.some.inj h) (by decide)
    exact iff_of_false (hdot hq b) (hdot hq' b')

/-- Two places of a text and of the reworded one: the imports `is` that are still to be found at the one
are the imports `is'` at the other one. -/
structure Beside (c : Cursor) (is : List Import) (c' : Cursor) (is' : List Import) : Prop where
  behind : Twin c.behind c'.behind
  ahead : Reworded c.offset c.ahead is c'.offset c'.ahead is'

theorem Beside.alongside (h : Beside c is c' is') (hle : ∀ i ∈ is, (c.advance n).offset ≤ i.start) :
    Alongside n c.ahead c'.ahead :=
  h.ahead.alongside fun i hi => Cursor.offset_advance n c ▸ hle i hi

/-- Both scans pass the same text. -/
theorem Beside.advance (h : Beside c is c' is') (hle : ∀ i ∈ is, (c.advance n).offset ≤ i.start) :
    Beside (c.advance n) is (c'.advance n) is' where
  behind := by
    rw [Cursor.behind_advance, Cursor.behind_advance, (h.alongside hle).take_eq]
    exact h.behind.append _
  ahead := by
    rw [Cursor.offset_advance, Cursor.offset_advance]
    exact h.ahead.drop fun i hi => Cursor.offset_advance n c ▸ hle i hi

theorem Beside.skipTrivia (h : Beside c is c' is')
    (hle : ∀ i ∈ is, (skipTrivia c).offset ≤ i.start) :
    Beside (skipTrivia c) is (skipTrivia c') is' := by
  have hsame := (h.alongside hle).triviaEnd_eq
  rw [Import.skipTrivia, Import.skipTrivia, hsame]
  exact h.advance hle

/-- What is in front at both places, up to a token before the next import. -/
theorem Beside.next (h : Beside c is c' is') (ht : c.ahead = x :: t)
    (hle : ∀ i ∈ is, (Import.skipTrivia (c.advance (n + 1))).offset ≤ i.start) :
    ∃ t', c'.ahead = x :: t' ∧ Alongside n t t' ∧
      Beside (Import.skipTrivia (c.advance (n + 1))) is
        (Import.skipTrivia (c'.advance (n + 1))) is' := by
  have hle' : ∀ i ∈ is, (c.advance (n + 1)).offset ≤ i.start :=
    fun i hi => (onward_skipTrivia _).offset_le.trans (hle i hi)
  have ha := h.alongside hle'
  rw [ht] at ha
  obtain ⟨t', ht', ha⟩ := ha.tail
  exact ⟨t', ht', ha, (h.advance hle').skipTrivia hle⟩

theorem Beside.alongside_zero (h : Beside c is c' is') : Alongside 0 c.ahead c'.ahead :=
  h.ahead.alongside fun i hi => by
    rw [List.take_zero, Text.bytes_nil]
    exact h.ahead.le_start i hi

theorem Beside.ahead_eq_nil (h : Beside c is c' is') (hc : c.ahead = []) : c'.ahead = [] :=
  Alongside.eq_nil (hc ▸ h.alongside_zero)

theorem Beside.eq_of_nil (h : Beside c [] c' is') : c'.ahead = c.ahead ∧ is' = [] := h.ahead.eq_of_nil

theorem Beside.atQuote_eq (h : Beside c is c' is') : atQuote c' = atQuote c := by
  have ha := h.alongside_zero
  unfold atQuote
  cases hc : c.ahead with
  | nil => rw [h.ahead_eq_nil hc]
  | cons x t =>
    rw [hc] at ha
    obtain ⟨t', ht, -⟩ | ⟨-, hx, y, t', ht, hy⟩ := ha.head
    · rw [ht]
      rfl
    · rw [ht]
      exact hy.trans hx.symm

/-- A character that is no quote is the same. -/
theorem Beside.head?_iff (h : Beside c is c' is') (hx : ¬ isQuote x) :
    c'.ahead.head? = some x ↔ c.ahead.head? = some x := by
  have ha := h.alongside_zero
  cases hc : c.ahead with
  | nil => rw [h.ahead_eq_nil hc]
  | cons y t =>
    rw [hc] at ha
    obtain ⟨t', ht, -⟩ | ⟨-, hy, z, t', ht, hz⟩ := ha.head
    · rw [ht]
      exact Iff.rfl
    · rw [ht]
      refine iff_of_false (fun hzx => ?_) fun hyx => ?_
      · exact hx (Option.some.inj hzx ▸ hz)
      · exact hx (Option.some.inj hyx ▸ hy)

/-- The literal of the next import is another one at the other place. -/
theorem Beside.literal {c : Cursor} (hahead : c.ahead = quoted q raw ++ rest)
    (h : Beside c (specifier kind c.offset q raw :: is) c' is') (hq : isQuote q) :
    ∃ q' raw' rest' is'', isQuote q' ∧ Inside q' raw' ∧ c'.ahead = quoted q' raw' ++ rest' ∧
      is' = specifier kind c'.offset q' raw' :: is'' ∧
      Beside ⟨(quoted q raw).reverse ++ c.behind, rest⟩ is
        ⟨(quoted q' raw').reverse ++ c'.behind, rest'⟩ is'' := by
  obtain ⟨hbehind, ha⟩ := h
  rw [hahead] at ha
  generalize hw : quoted q raw ++ rest = w at ha
  generalize hi : specifier kind c.offset q raw = i at ha
  generalize hr : c'.ahead = r at ha
  cases ha with
  | @literal _ _ rest₁ rest' raw₁ raw' q₁ q' _ is'' gap kind' hq₁ hq' hin h =>
    simp only [specifier, Import.mk.injEq] at hi
    obtain ⟨hstart, -, rfl, rfl⟩ := hi
    obtain rfl : gap = [] := by
      by_contra hne
      have := Text.bytes_pos hne
      omega
    rw [List.nil_append, quoted_append, quoted_append] at hw
    obtain ⟨rfl, hw⟩ := List.cons.inj hw
    obtain ⟨-, rfl⟩ := List.cons.inj (List.append_cancel_left hw)
    refine ⟨q', raw', rest', is'', hq', hin, rfl, by rw [Text.bytes_nil, Nat.add_zero], ?_, ?_⟩
    · rw [quoted, quoted, List.reverse_cons, List.reverse_cons, List.reverse_append,
        List.reverse_append]
      exact twin_quote hq hq' _ _
    · rw [List.nil_append, List.nil_append, Nat.add_comm, Nat.add_comm c'.offset] at h
      simpa only [Cursor.offset, Text.bytes_append, Text.bytes_reverse] using h

/-! ### Readers -/

/-- One reader ends with `r`, the other one with `r'`: the second one finds what the reworded text has
in the place of what the first one finds, and both scans go on side by side. -/
def Keeps (r r' : Option Import × Cursor) (is' : List Import) : Prop :=
  ∃ is'', is' = r'.1.toList ++ is'' ∧ Beside r.2 (scanFrom r.2) r'.2 is''

theorem keeps_none (h : Beside c (scanFrom c) c' is') : Keeps (none, c) (none, c') is' :=
  ⟨is', rfl, h⟩

theorem offset_le_of_ends {p : Cursor} {r : Option Import × Cursor} (h : Ends p r) :
    ∀ i ∈ resume r, p.offset ≤ i.start := by
  intro i hi
  rcases List.mem_append.mp hi with hi | hi
  · obtain ⟨-, -, -, -, -, -, hs, -⟩ := (h.read (Option.mem_toList.mp hi)).shape
    exact hs.ge
  · exact h.onward.offset_le.trans (offset_le_start hi)

/-- A reader that begins with the next token finds nothing before it. -/
theorem offset_le_of_walk {R : Cursor → Option Import × Cursor} {ls : List Cursor}
    (hskip : R (skipTrivia c) = R c)
    (hw : ∃ p, Walk (skipTrivia c) ls p ∧ Ends p (R (skipTrivia c))) :
    ∀ i ∈ resume (R c), (skipTrivia c).offset ≤ i.start := by
  obtain ⟨p, hw, he⟩ := hw
  rw [← hskip]
  exact fun i hi => hw.onward.offset_le.trans (offset_le_of_ends he i hi)

theorem offset_le_of_mem_clause (kind : Kind) (c : Cursor) :
    ∀ i ∈ resume (clause kind c), (skipTrivia c).offset ≤ i.start :=
  offset_le_of_walk (clause_skipTrivia kind c) (walk_clause kind _)

theorem offset_le_of_mem_dynamicArgument (c : Cursor) :
    ∀ i ∈ resume (dynamicArgument c), (skipTrivia c).offset ≤ i.start :=
  offset_le_of_walk (congrArg argumentHere (skipTrivia_skipTrivia c)) (walk_dynamicArgument Walk.stay)

theorem offset_le_of_mem_afterWord (word : Text) (c : Cursor)
    (h : word = "import".toList ∨ word = "export".toList) :
    ∀ i ∈ resume (afterWord word c), (skipTrivia c).offset ≤ i.start := by
  refine offset_le_of_walk ?_ (walk_afterWord word Walk.stay)
  unfold afterWord
  split_ifs with h1 h2
  · exact congrArg importHere (skipTrivia_skipTrivia c)
  · exact congrArg exportHere (skipTrivia_skipTrivia c)
  · exact absurd h (not_or.mpr ⟨h1, h2⟩)

theorem offset_le_of_mem_literalOrQuote (kind : Kind) (hq : atQuote c) :
    ∀ i ∈ resume (literalOrQuote kind c), c.offset ≤ i.start := by
  obtain ⟨p, hw, he⟩ := walk_literalOrQuote kind Walk.stay hq
  exact fun i hi => hw.onward.offset_le.trans (offset_le_of_ends he i hi)

/-- A literal that is opened is closed. -/
theorem exists_quoted (hq : atQuote c) (hc : isClosed c) :
    ∃ q raw rest, isQuote q ∧ Inside q raw ∧ c = ⟨c.behind, quoted q raw ++ rest⟩ := by
  obtain ⟨b, t⟩ := c
  obtain ⟨q, t, rfl, hquote⟩ := exists_quote hq
  obtain ⟨n, hn⟩ := Option.isSome_iff_exists.mp (isSome_stringEnd?_of_isClosed hc hquote)
  obtain ⟨raw, rest, hin, rfl, -⟩ := append_of_stringEnd? hn
  exact ⟨q, raw, rest, hquote, hin, by rw [quoted_append]⟩

theorem beside_literalOrQuote (kind : Kind) (hq : atQuote c) (hc : isClosed c)
    (h : Beside c (resume (literalOrQuote kind c)) c' is') :
    Keeps (literalOrQuote kind c) (literalOrQuote kind c') is' := by
  obtain ⟨q, raw, rest, hquote, hin, hahead⟩ := exists_quoted hq hc
  have hread := literalOrQuote_quoted (b := c.behind) (t := rest) kind hquote hin
  rw [← hahead] at hread
  rw [hread, resume_some] at h
  obtain ⟨q', raw', rest', is'', hq', hin', ha', rfl, hnext⟩ :=
    h.literal (congrArg Cursor.ahead hahead) hquote
  have hread' := literalOrQuote_quoted (b := c'.behind) (t := rest') kind hq' hin'
  rw [← ha'] at hread'
  rw [hread]
  exact ⟨is'', by rw [hread']; rfl, by rw [hread']; exact hnext⟩

/-- A quote ends a clause. -/
theorem clause_quote (h : (skipTrivia c).ahead = q :: t) (hq : isQuote q) :
    clause kind c = (none, skipTrivia c) := by
  have hx : q ≠ '\x7b' ∧ (q = '*' || q = ',') = false ∧ ¬ isWordStart q := by
    rcases isQuote_iff.mp hq with rfl | rfl <;> decide
  rw [clause_cons h, if_neg hx.1, if_neg (by rw [hx.2.1]; decide), if_neg hx.2.2]

/-- A brace list that is not closed. -/
theorem beside_open_list (kind : Kind) (ht : (skipTrivia c).ahead = '\x7b' :: t)
    (hn : t.findIdx? (· = '\x7d') = none)
    (h : Beside (skipTrivia c) (resume (clause kind c)) (skipTrivia c') is') :
    Keeps (clause kind c) (clause kind c') is' := by
  have hcons : clause kind c = (none, (skipTrivia c).finish) := by
    rw [clause_cons ht, if_pos rfl, hn]
  have hnil : resume (clause kind c) = [] := by
    rw [hcons, resume_none, scanFrom_nil (by simp [Cursor.finish])]
  rw [hnil] at h
  obtain ⟨hsame, rfl⟩ := h.eq_of_nil
  have hcons' : clause kind c' = (none, (skipTrivia c').finish) := by
    rw [clause_cons (hsame.trans ht), if_pos rfl, hn]
  rw [hcons, hcons']
  refine keeps_none ?_
  rw [scanFrom_nil (by simp [Cursor.finish]), Cursor.finish, Cursor.finish, hsame]
  exact h.advance (by simp)

theorem beside_clause (kind : Kind) (h : Beside c (resume (clause kind c)) c' is')
    (hc : ∀ d ∈ clausePlaces c, isClosed d) : Keeps (clause kind c) (clause kind c') is' := by
  generalize hl : c.ahead.length = l
  induction l using Nat.strongRecOn generalizing c c' with
  | ind l ih =>
    have hd := h.skipTrivia (offset_le_of_mem_clause kind c)
    cases ht : (skipTrivia c).ahead with
    | nil =>
      rw [clause_nil ht, resume_none] at hd
      rw [clause_nil ht, clause_nil (hd.ahead_eq_nil ht)]
      exact keeps_none hd
    | cons x t =>
      have hcons : clause kind c = _ := clause_cons ht
      rw [clausePlaces_cons ht] at hc
      by_cases hx : isQuote x
      · have hq' : atQuote (skipTrivia c') := by
          rw [hd.atQuote_eq, atQuote, ht]
          exact hx
        obtain ⟨q', t', ht', hquote'⟩ := exists_quote hq'
        rw [clause_quote ht hx, resume_none] at hd
        rw [clause_quote ht hx, clause_quote ht' hquote']
        exact keeps_none hd
      -- where the clause goes on, all imports still lie ahead
      have hle {n : Nat} (hsame : clause kind c = clause kind ((skipTrivia c).advance (n + 1))) :
          ∀ i ∈ resume (clause kind c),
            (skipTrivia ((skipTrivia c).advance (n + 1))).offset ≤ i.start :=
        hsame ▸ offset_le_of_mem_clause kind _
      have hnext {n : Nat} (hsame : clause kind c = clause kind ((skipTrivia c).advance (n + 1)))
          (hsame' : clause kind c' = clause kind ((skipTrivia c').advance (n + 1)))
          (hc : ∀ d ∈ clausePlaces ((skipTrivia c).advance (n + 1)), isClosed d) :
          Keeps (clause kind c) (clause kind c') is' := by
        have hlt := Nat.lt_of_lt_of_le (Cursor.length_advance_lt ht n) (onward_skipTrivia c).length_le
        have hb := hd.advance fun i hi => (onward_skipTrivia _).offset_le.trans (hle hsame i hi)
        rw [hsame] at hb
        rw [hsame, hsame']
        exact ih _ (hl ▸ hlt) hb hc rfl
      split_ifs at hcons hc with h1 h2 h3 h4
      · subst h1
        cases hn : t.findIdx? (· = '\x7d') with
        | some n =>
          rw [hn] at hcons hc
          obtain ⟨t', ht', ha, -⟩ := hd.next (n := n + 1) ht (hle hcons)
          exact hnext hcons (by rw [clause_cons ht', if_pos rfl, ha.findIdx?_eq hn]) hc
        | none => exact beside_open_list kind ht hn hd
      · obtain ⟨t', ht', -⟩ := hd.next (n := 0) ht (hle hcons)
        exact hnext hcons (by rw [clause_cons ht', if_neg h1, if_pos h2]) hc
      · -- the literal of the clause
        have hq := (Bool.and_eq_true_iff.mp h4).2
        obtain ⟨t', ht', ha, hb⟩ := hd.next ht (hcons ▸ offset_le_of_mem_literalOrQuote kind hq)
        have hcons' : clause kind c' =
            literalOrQuote kind (skipTrivia ((skipTrivia c').advance (wordEnd t + 1))) := by
          rw [clause_cons ht', if_neg h1, if_neg h2, if_pos h3, ha.wordEnd_eq, ha.take_eq,
            hb.atQuote_eq, if_pos h4]
        rw [hcons] at hb
        rw [hcons, hcons']
        exact beside_literalOrQuote kind hq (hc _ (List.mem_singleton_self _)) hb
      · obtain ⟨t', ht', ha, hb⟩ := hd.next ht (hle hcons)
        refine hnext hcons ?_ hc
        rw [clause_cons ht', if_neg h1, if_neg h2, if_pos h3, ha.wordEnd_eq, ha.take_eq,
          hb.atQuote_eq, if_neg h4]
      · obtain ⟨t', ht', -⟩ := Alongside.tail_of_not_isQuote (ht ▸ hd.alongside_zero) hx
        have hcons' : clause kind c' = (none, skipTrivia c') := by
          rw [clause_cons ht', if_neg h1, if_neg h2, if_neg h3]
        rw [hcons, resume_none] at hd
        rw [hcons, hcons']
        exact keeps_none hd

theorem argumentHere_quoted (hq : isQuote q) (h : Inside q raw) :
    argumentHere ⟨b, quoted q raw ++ t⟩ =
      (if (skipTrivia ⟨(quoted q raw).reverse ++ b, t⟩).ahead.head? = some ')' ∨
          (skipTrivia ⟨(quoted q raw).reverse ++ b, t⟩).ahead.head? = some ',' then
        some (specifier .dynamic (Text.bytes b) q raw) else none,
      ⟨(quoted q raw).reverse ++ b, t⟩) := by
  have hquote : atQuote ⟨b, quoted q raw ++ t⟩ := by
    rw [quoted_append]
    exact hq
  rw [argumentHere, if_pos hquote, literal?_quoted .dynamic hq h]

/-- The same token comes next behind both literals. -/
theorem argument_ends_iff (h : Beside c (scanFrom c) c' is') :
    ((skipTrivia c').ahead.head? = some ')' ∨ (skipTrivia c').ahead.head? = some ',') ↔
      ((skipTrivia c).ahead.head? = some ')' ∨ (skipTrivia c).ahead.head? = some ',') := by
  have hs := h.skipTrivia fun i hi => offset_le_start (by rwa [scanFrom_skipTrivia])
  rw [hs.head?_iff (by decide), hs.head?_iff (by decide)]

theorem beside_argumentHere (h : Beside c (resume (argumentHere c)) c' is')
    (hc : ∀ d ∈ literalPlaces c, isClosed d) : Keeps (argumentHere c) (argumentHere c') is' := by
  by_cases hq : atQuote c
  · rw [literalPlaces, if_pos hq] at hc
    obtain ⟨q, raw, rest, hquote, hin, hahead⟩ := exists_quoted hq (hc c (List.mem_singleton_self c))
    have hread := argumentHere_quoted (b := c.behind) (t := rest) hquote hin
    rw [← hahead] at hread
    split_ifs at hread with hend
    · rw [hread, resume_some] at h
      obtain ⟨q', raw', rest', is'', hq', hin', ha', rfl, hnext⟩ :=
        h.literal (congrArg Cursor.ahead hahead) hquote
      have hread' := argumentHere_quoted (b := c'.behind) (t := rest') hq' hin'
      rw [← ha', if_pos ((argument_ends_iff hnext).mpr hend)] at hread'
      rw [hread]
      exact ⟨is'', by rw [hread']; rfl, by rw [hread']; exact hnext⟩
    · -- the literal belongs to no import, and is the same in both texts
      have hadv := Cursor.advance_length (congrArg Cursor.ahead hahead)
      rw [hread, resume_none, ← hadv] at h
      have hb := h.advance fun i hi => offset_le_start hi
      have htake := (h.alongside fun i hi => offset_le_start hi).take_eq
      rw [congrArg Cursor.ahead hahead, List.take_left] at htake
      have ha' := List.take_append_drop (quoted q raw).length c'.ahead
      rw [htake] at ha'
      have hread' := argumentHere_quoted (b := c'.behind)
        (t := c'.ahead.drop (quoted q raw).length) hquote hin
      have hadv' := Cursor.advance_length ha'.symm
      rw [ha', ← hadv', if_neg fun hend' => hend (hadv ▸ (argument_ends_iff hb).mp hend')] at hread'
      rw [hread, ← hadv, hread']
      exact keeps_none hb
  · have hq' : ¬ atQuote c' := by rwa [Beside.atQuote_eq h]
    rw [argumentHere, if_neg hq, resume_none] at h
    rw [argumentHere, argumentHere, if_neg hq, if_neg hq']
    exact keeps_none h

theorem beside_dynamicArgument (h : Beside c (resume (dynamicArgument c)) c' is')
    (hc : ∀ d ∈ literalPlaces (skipTrivia c), isClosed d) :
    Keeps (dynamicArgument c) (dynamicArgument c') is' :=
  beside_argumentHere (h.skipTrivia (offset_le_of_mem_dynamicArgument c)) hc

/-- What follows the word `import`. -/
theorem beside_importHere (h : Beside c (resume (importHere c)) c' is')
    (hc : ∀ d ∈ importPlaces c, isClosed d) : Keeps (importHere c) (importHere c') is' := by
  have hquote := h.atQuote_eq
  have hparen := h.head?_iff (x := '(') (by decide)
  have hdot := h.head?_iff (x := '.') (by decide)
  unfold importPlaces at hc
  unfold importHere at h ⊢
  simp only [hquote, hparen, hdot]
  split_ifs at h hc ⊢ with h1 h2 h3
  · exact beside_literalOrQuote .static h1 (hc c (List.mem_singleton_self c)) h
  · exact beside_dynamicArgument (h.advance fun i hi =>
      (onward_skipTrivia _).offset_le.trans (offset_le_of_mem_dynamicArgument _ i hi)) hc
  · exact keeps_none (h.advance fun i hi => offset_le_start hi)
  · exact beside_clause .static h hc

/-- What follows the word `export`. -/
theorem beside_exportHere (h : Beside c (resume (exportHere c)) c' is')
    (hc : ∀ d ∈ exportPlaces c, isClosed d) : Keeps (exportHere c) (exportHere c') is' := by
  have hstar := h.head?_iff (x := '*') (by decide)
  have hbrace := h.head?_iff (x := '\x7b') (by decide)
  unfold exportPlaces at hc
  unfold exportHere at h ⊢
  simp only [hstar, hbrace]
  split_ifs at h hc ⊢
  · exact beside_clause .reexport h hc
  · exact keeps_none h

/-- What follows a word. -/
theorem beside_afterWord (word : Text) (h : Beside c (resume (afterWord word c)) c' is')
    (hc : ∀ d ∈ wordPlaces word c, isClosed d) :
    Keeps (afterWord word c) (afterWord word c') is' := by
  have hle := offset_le_of_mem_afterWord word c
  unfold wordPlaces at hc
  unfold afterWord at h hle ⊢
  split_ifs at h hc hle ⊢ with h1 h2
  · exact beside_importHere (h.skipTrivia (hle (Or.inl h1))) hc
  · exact beside_exportHere (h.skipTrivia (hle (Or.inr h2))) hc
  · exact keeps_none h

/-! ### The scan -/

theorem offset_le_of_mem_step (c : Cursor) (x : Char) (t : Text) :
    ∀ i ∈ resume (step c x t), (c.advance ((Lexeme.read c.behind x t).size + 1)).offset ≤ i.start := by
  unfold step
  dsimp only
  split
  · obtain ⟨p, hw, he⟩ := walk_afterWord (x :: t.take (Lexeme.read c.behind x t).size)
      (Walk.stay (c := c.advance ((Lexeme.read c.behind x t).size + 1)))
    exact fun i hi => hw.onward.offset_le.trans (offset_le_of_ends he i hi)
  · exact fun i hi => offset_le_start hi

/-- A turn of both scans. -/
theorem beside_step (ht : c.ahead = x :: t) (h : Beside c (resume (step c x t)) c' is')
    (hc : ∀ d ∈ turnPlaces c x t, isClosed d) :
    ∃ t', c'.ahead = x :: t' ∧ Keeps (step c x t) (step c' x t') is' := by
  have hle := offset_le_of_mem_step c x t
  have hb := h.advance hle
  obtain ⟨t', ht', ha⟩ := Alongside.tail (ht ▸ h.alongside hle)
  have hread : Lexeme.read c'.behind x t' = Lexeme.read c.behind x t := by
    rw [← h.behind.read_eq x t']
    exact ha.read_eq fun d hd => hc d (List.mem_append_left _ hd)
  refine ⟨t', ht', ?_⟩
  have hword := (List.forall_mem_append.mp hc).2
  unfold step at hb ⊢
  simp only [hread, ha.take_eq, ne_eq, ← h.behind.dot] at hb hword ⊢
  split_ifs at hb hword ⊢
  · exact beside_afterWord _ hb hword
  · exact keeps_none hb

/-- **The scan of a reworded text** finds the reworded imports. -/
theorem scanFrom_eq_of_beside (h : Beside c (scanFrom c) c' is') (hc : ∀ d ∈ placesFrom c, isClosed d) :
    scanFrom c' = is' := by
  generalize hl : c.ahead.length = l
  induction l using Nat.strongRecOn generalizing c c' is' with
  | ind l ih =>
    cases ht : c.ahead with
    | nil =>
      rw [scanFrom_nil ht] at h
      rw [scanFrom_nil (h.ahead_eq_nil ht), h.eq_of_nil.2]
    | cons x t =>
      rw [scanFrom_cons ht] at h
      rw [placesFrom_cons ht, List.forall_mem_append] at hc
      obtain ⟨t', ht', is'', rfl, hnext⟩ := beside_step ht h hc.1
      rw [scanFrom_cons ht', ih _ (hl ▸ length_step_lt ht) hnext hc.2 rfl]

/-- A reworded source. -/
theorem scan_eq_of_reworded {source source' : Text} (hs : Tidy source)
    (h : Reworded 0 source (scan source) 0 source' is') : scan source' = is' := by
  have hb : Beside (Cursor.start source) (scan source) (Cursor.start source') is' :=
    ⟨⟨Alike.refl [], Iff.rfl⟩, h⟩
  exact scanFrom_eq_of_beside hb hs

end Unbundled.Import
