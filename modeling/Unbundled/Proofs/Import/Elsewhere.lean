import Unbundled.Proofs.Import.Reading
import Unbundled.Proofs.Source.Behind

/-! # The scan behind other texts

What a declaration is depends on what is ahead only: read elsewhere, it gives the same import, moved
by the difference of the two places (`Relative`). What stands behind a place decides two questions, what
a slash means and whether a word is the name of a member. Two texts that answer both alike are `Twin`.

* `relative_afterWord`: a declaration is read relative to its place.
* `exists_scanFrom`: behind two such texts the scan finds the same imports, each at its own place. -/

namespace Unbundled.Import

open Source

variable {b b' p t : Text} {x : Char} {kind : Kind} {R S : Cursor → Option Import × Cursor}

/-- The same import `n` bytes further on. -/
def shift (n : Nat) (i : Import) : Import := { i with start := i.start + n, stop := i.stop + n }

/-- An import behind `p ++ b` is one behind `p`, moved by the size of `b`. -/
theorem shift_behind (p b : Text) :
    shift (Text.bytes (p.reverse ++ b)) = shift (Text.bytes b) ∘ shift (Text.bytes p) := by
  funext i
  simp only [Function.comp, shift, Text.bytes_append, Text.bytes_reverse, Nat.add_assoc]

theorem map_shift_zero (is : List Import) : is.map (shift 0) = is := by
  have h : shift 0 = id := by
    funext i
    simp [shift]
  rw [h, List.map_id]

/-! ### Readers that look ahead only -/

/-- The reader takes the text `t` alike wherever it stands. -/
def Relative (R : Cursor → Option Import × Cursor) (t : Text) : Prop :=
  ∃ (o : Option Import) (n : Nat), ∀ b, R ⟨b, t⟩ = (o.map (shift (Text.bytes b)), (⟨b, t⟩ : Cursor).advance n)

theorem relative_none (n : Nat) (t : Text) : Relative (fun c => (none, c.advance n)) t :=
  ⟨none, n, fun _ => rfl⟩

theorem Relative.congr (h : Relative S t) (he : ∀ b, R ⟨b, t⟩ = S ⟨b, t⟩) : Relative R t := by
  obtain ⟨o, n, h⟩ := h
  exact ⟨o, n, fun b => (he b).trans (h b)⟩

theorem Relative.advance {n : Nat} (h : Relative R (t.drop n)) :
    Relative (fun c => R (c.advance n)) t := by
  obtain ⟨o, m, h⟩ := h
  refine ⟨o.map (shift (Text.bytes (t.take n))), n + m, fun b => ?_⟩
  rw [Option.map_map, ← shift_behind, ← Cursor.advance_advance]
  exact h _

theorem Relative.skipTrivia (h : Relative R (t.drop (triviaEnd t))) :
    Relative (fun c => R (Import.skipTrivia c)) t := Relative.advance h

theorem relative_literalOrQuote (kind : Kind) (t : Text) : Relative (literalOrQuote kind) t := by
  cases t with
  | nil => exact (relative_none 1 []).congr fun b => rfl
  | cons q t =>
    cases hn : stringEnd? q t with
    | none => exact (relative_none 1 _).congr fun b => by simp [literalOrQuote, literal?, hn]
    | some n =>
      refine ⟨some ⟨0, Text.bytes (q :: t.take n), (t.take n).dropLast, kind⟩, n + 1, fun b => ?_⟩
      simp [literalOrQuote, literal?, hn, shift, Cursor.offset, Nat.add_comm]

theorem relative_clause (kind : Kind) (t : Text) : Relative (clause kind) t := by
  generalize hl : t.length = l
  induction l using Nat.strongRecOn generalizing t with
  | ind l ih =>
    have hahead (b : Text) : (skipTrivia ⟨b, t⟩).ahead = t.drop (triviaEnd t) := rfl
    cases hu : t.drop (triviaEnd t) with
    | nil => exact (relative_none (triviaEnd t) t).congr fun b => clause_nil ((hahead b).trans hu)
    | cons x u =>
      have hlen : u.length < l := by
        have := congrArg List.length hu
        rw [List.length_drop, List.length_cons] at this
        omega
      -- how the clause goes on behind its next `n + 1` characters
      have hnext (n : Nat) : Relative (fun c => clause kind ((skipTrivia c).advance (n + 1))) t := by
        refine Relative.skipTrivia (R := fun c => clause kind (c.advance (n + 1))) ?_
        rw [hu]
        refine Relative.advance (R := clause kind) ?_
        exact ih _ (by rw [List.drop_succ_cons, List.length_drop]; omega) _ rfl
      have hquote (b : Text) : atQuote (skipTrivia ((skipTrivia ⟨b, t⟩).advance (wordEnd u + 1))) =
          atQuote (skipTrivia ⟨[], (x :: u).drop (wordEnd u + 1)⟩) := by
        rw [← hu]
        rfl
      have hcons (b : Text) : clause kind ⟨b, t⟩ = _ := clause_cons ((hahead b).trans hu)
      simp only [hquote] at hcons
      split_ifs at hcons with h1 h2 h3 h4
      · cases hn : u.findIdx? (· = '\x7d') with
        | some n =>
          rw [hn] at hcons
          exact (hnext (n + 1)).congr hcons
        | none =>
          rw [hn] at hcons
          refine Relative.congr (Relative.skipTrivia (R := fun c => (none, c.finish)) ?_) hcons
          exact (relative_none (t.drop (triviaEnd t)).length _).congr fun b => rfl
      · exact (hnext 0).congr hcons
      · refine Relative.congr (Relative.skipTrivia
          (R := fun c => literalOrQuote kind (skipTrivia (c.advance (wordEnd u + 1)))) ?_) hcons
        refine Relative.advance (R := fun c => literalOrQuote kind (skipTrivia c)) ?_
        exact (relative_literalOrQuote kind _).skipTrivia
      · exact (hnext _).congr hcons
      · exact (relative_none (triviaEnd t) t).congr hcons

theorem relative_stay (t : Text) : Relative (fun c => (none, c)) t :=
  ⟨none, 0, fun b => by rw [Cursor.advance_zero]; rfl⟩

theorem relative_argumentHere (t : Text) : Relative argumentHere t := by
  by_cases hq : atQuote ⟨[], t⟩
  · obtain ⟨q, v, rfl, -⟩ := exists_quote hq
    have hq (b : Text) : atQuote ⟨b, q :: v⟩ := hq
    cases hn : stringEnd? q v with
    | none =>
      refine (relative_stay _).congr fun b => ?_
      have hl : literal? .dynamic ⟨b, q :: v⟩ = none := by simp [literal?, hn]
      rw [argumentHere, if_pos (hq b), hl]
    | some n =>
      have hl (b : Text) : literal? .dynamic ⟨b, q :: v⟩ =
          some (shift (Text.bytes b) ⟨0, Text.bytes (q :: v.take n), (v.take n).dropLast, .dynamic⟩,
            (⟨b, q :: v⟩ : Cursor).advance (n + 1)) := by
        simp [literal?, hn, shift, Cursor.offset, Nat.add_comm]
      have hc (b : Text) : (skipTrivia ((⟨b, q :: v⟩ : Cursor).advance (n + 1))).ahead.head? =
        (skipTrivia ⟨[], v.drop n⟩).ahead.head? := rfl
      by_cases hclose : (skipTrivia ⟨[], v.drop n⟩).ahead.head? = some ')' ∨
          (skipTrivia ⟨[], v.drop n⟩).ahead.head? = some ','
      · refine ⟨some ⟨0, Text.bytes (q :: v.take n), (v.take n).dropLast, .dynamic⟩, n + 1,
          fun b => ?_⟩
        rw [argumentHere, if_pos (hq b), hl]
        dsimp only
        rw [hc, if_pos hclose]
        rfl
      · refine (relative_none (n + 1) _).congr fun b => ?_
        rw [argumentHere, if_pos (hq b), hl]
        dsimp only
        rw [hc, if_neg hclose]
  · exact (relative_stay t).congr fun b => if_neg hq

theorem relative_dynamicArgument (t : Text) : Relative dynamicArgument t :=
  (relative_argumentHere (t.drop (triviaEnd t))).skipTrivia

theorem relative_afterImport (t : Text) : Relative afterImport t := by
  refine Relative.skipTrivia (R := importHere) ?_
  generalize t.drop (triviaEnd t) = u
  by_cases hq : atQuote ⟨[], u⟩
  · exact (relative_literalOrQuote .static u).congr fun b => if_pos hq
  by_cases hp : u.head? = some '('
  · refine Relative.congr (Relative.advance (relative_dynamicArgument (u.drop 1))) fun b => ?_
    exact (if_neg hq).trans (if_pos hp)
  by_cases hd : u.head? = some '.'
  · refine (relative_none 1 u).congr fun b => ?_
    exact (if_neg hq).trans ((if_neg hp).trans (if_pos hd))
  · refine (relative_clause .static u).congr fun b => ?_
    exact (if_neg hq).trans ((if_neg hp).trans (if_neg hd))

theorem relative_afterExport (t : Text) : Relative afterExport t := by
  refine Relative.skipTrivia (R := exportHere) ?_
  generalize t.drop (triviaEnd t) = u
  by_cases hu : u.head? = some '*' ∨ u.head? = some '\x7b'
  · exact (relative_clause .reexport u).congr fun b => if_pos hu
  · exact (relative_stay u).congr fun b => if_neg hu

/-- **What follows a word is read relative to its place.** -/
theorem relative_afterWord (word t : Text) : Relative (afterWord word) t := by
  by_cases h1 : word = "import".toList
  · exact (relative_afterImport t).congr fun b => if_pos h1
  by_cases h2 : word = "export".toList
  · exact (relative_afterExport t).congr fun b => (if_neg h1).trans (if_pos h2)
  · exact (relative_stay t).congr fun b => (if_neg h1).trans (if_neg h2)

/-! ### Texts that the scan does not tell apart -/

/-- A slash and a word mean the same behind both texts, also to the scan. -/
structure Twin (b b' : Text) : Prop extends Alike b b' where
  dot : lastSolid? b = some '.' ↔ lastSolid? b' = some '.'

theorem Twin.append (h : Twin b b') (p : Text) : Twin (p ++ b) (p ++ b') where
  toAlike := h.toAlike.append p
  dot := by
    unfold lastSolid?
    rw [List.dropWhile_append, List.dropWhile_append]
    split
    · exact h.dot
    · rename_i hp
      cases hd : p.dropWhile isSpace with
      | nil => exact absurd (by rw [hd]; rfl) hp
      | cons c u => exact Iff.rfl

/-- A turn is taken alike behind both texts. -/
theorem Twin.step_eq (h : Twin b b') (x : Char) (t : Text) :
    ∃ (o : Option Import) (n : Nat),
      step ⟨b, x :: t⟩ x t = (o.map (shift (Text.bytes b)), (⟨b, x :: t⟩ : Cursor).advance n) ∧
      step ⟨b', x :: t⟩ x t =
        (o.map (shift (Text.bytes b')), (⟨b', x :: t⟩ : Cursor).advance n) := by
  have hread := h.read_eq x t
  set l := Lexeme.read b x t with hl
  by_cases hw : l.kind = .word ∧ lastSolid? b ≠ some '.'
  · have hw' : l.kind = .word ∧ lastSolid? b' ≠ some '.' := ⟨hw.1, fun hd => hw.2 (h.dot.mpr hd)⟩
    have hafter : Relative (afterWord (x :: t.take l.size)) ((x :: t).drop (l.size + 1)) :=
      relative_afterWord _ _
    obtain ⟨o, n, hrel⟩ := hafter.advance
    refine ⟨o, n, (if_pos hw).trans (hrel b), ?_⟩
    rw [step, ← hread]
    exact (if_pos hw').trans (hrel b')
  · have hw' : ¬ (l.kind = .word ∧ lastSolid? b' ≠ some '.') :=
      fun hn => hw ⟨hn.1, fun hd => hn.2 (h.dot.mp hd)⟩
    refine ⟨none, l.size + 1, if_neg hw, ?_⟩
    rw [step, ← hread]
    exact if_neg hw'

/-- **Behind both texts the scan finds the same imports**, each at its own place. -/
theorem Twin.exists_scanFrom (h : Twin b b') (t : Text) :
    ∃ is : List Import, scanFrom ⟨b, t⟩ = is.map (shift (Text.bytes b)) ∧
      scanFrom ⟨b', t⟩ = is.map (shift (Text.bytes b')) := by
  generalize hl : t.length = l
  induction l using Nat.strongRecOn generalizing b b' t with
  | ind l ih =>
    cases t with
    | nil => exact ⟨[], scanFrom_nil rfl, scanFrom_nil rfl⟩
    | cons x t =>
      obtain ⟨o, n, hs, hs'⟩ := h.step_eq x t
      have hlt := @length_step_lt ⟨b, x :: t⟩ x t rfl
      rw [hs, Cursor.ahead_advance] at hlt
      obtain ⟨is, hi, hi'⟩ := ih _ (hl ▸ hlt) (h.append ((x :: t).take n).reverse)
        ((x :: t).drop n) rfl
      -- the turn itself, and what is found from the next place on
      have hscan {b'' : Text} (hs : step ⟨b'', x :: t⟩ x t =
          (o.map (shift (Text.bytes b'')), (⟨b'', x :: t⟩ : Cursor).advance n))
          (hi : scanFrom ⟨((x :: t).take n).reverse ++ b'', (x :: t).drop n⟩ =
            is.map (shift (Text.bytes (((x :: t).take n).reverse ++ b'')))) :
          scanFrom ⟨b'', x :: t⟩ = (o.toList ++ is.map (shift (Text.bytes ((x :: t).take n)))).map
            (shift (Text.bytes b'')) := by
        have hnext : scanFrom ((⟨b'', x :: t⟩ : Cursor).advance n) =
            is.map (shift (Text.bytes (((x :: t).take n).reverse ++ b''))) := hi
        rw [scanFrom_cons (c := ⟨b'', x :: t⟩) rfl, hs, hnext, List.map_append, List.map_map,
          shift_behind]
        cases o <;> rfl
      exact ⟨_, hscan hs hi, hscan hs' hi'⟩

/-- Behind a semicolon the scan begins anew. -/
theorem scanFrom_semicolon (b s : Text) :
    scanFrom ⟨';' :: b, s⟩ = (scan s).map (shift (Text.bytes (';' :: b))) := by
  have htwin : Twin [] (';' :: b) := ⟨alike_semicolon b, by simp [lastSolid?, isSpace]⟩
  obtain ⟨is, h1, h2⟩ := htwin.exists_scanFrom s
  rw [Text.bytes_nil, map_shift_zero] at h1
  rw [h2, ← h1]
  rfl

/-- What was behind something solid does not count, once a character that belongs to no word stands
between. -/
theorem twin_append (b b' : Text) (h : ∃ c ∈ p, ¬ isSpace c) (hw : ∃ y ∈ p.getLast?, ¬ isWordChar y) :
    Twin (p ++ b) (p ++ b') where
  toAlike := alike_append b b' h hw
  dot := by
    obtain ⟨c, hc, hs⟩ := h
    have hne : p.dropWhile isSpace ≠ [] := fun hn => hs (List.dropWhile_eq_nil_iff.mp hn c hc)
    obtain ⟨d, u, hd⟩ := List.exists_cons_of_ne_nil hne
    unfold lastSolid?
    rw [List.dropWhile_append, List.dropWhile_append, hd]
    exact Iff.rfl

/-- Behind both texts the scan finds as many imports. -/
theorem Twin.length_scanFrom (h : Twin b b') (t : Text) :
    (scanFrom ⟨b, t⟩).length = (scanFrom ⟨b', t⟩).length := by
  obtain ⟨is, h1, h2⟩ := h.exists_scanFrom t
  rw [h1, h2, List.length_map, List.length_map]

end Unbundled.Import
