import Mathlib.Logic.Relation
import Unbundled.Proofs.Import.Runs

/-! # What follows the turns of the scan

A turn that ends before a text `t` is taken in the same way before another text `t'` that continues
alike, if `t` opens with a blank or a comment: a reader that looks into `t` for the next token goes on
into it. Only the parenthesis behind the argument of `import(…)` is looked for without going there;
whether it comes next behind both texts (`SameNext`) decides whether the import is found.

* `Kept`: the readers that end at the same place, and find the same import, before both texts.
* `Reached.kept`: the places of the scan before `t` are places of the scan before `t'`. -/

namespace Unbundled.Import

open Source

variable {b t t' u v : Text} {x : Char} {m n : Nat} {kind : Kind} {P : Text → Prop}
  {R S : Cursor → Option Import × Cursor}

/-! ### Readers that end before a text -/

/-- The same character comes next behind `v`, blanks and comments aside. -/
def SameNext (t t' v : Text) : Prop :=
  (skipTrivia ⟨[], v ++ t⟩).ahead.head? = (skipTrivia ⟨[], v ++ t'⟩).ahead.head?

/-- A reader of `u` that ends before `t` ends before `t'` at the same place. -/
def Kept (t t' : Text) (R : Cursor → Option Import × Cursor) (u : Text) : Prop :=
  ∀ b n, n ≤ u.length → (R ⟨b, u ++ t⟩).2 = (⟨b, u ++ t⟩ : Cursor).advance n →
    (R ⟨b, u ++ t'⟩).2 = (⟨b, u ++ t'⟩ : Cursor).advance n ∧
      (SameNext t t' (u.drop n) → (R ⟨b, u ++ t'⟩).1 = (R ⟨b, u ++ t⟩).1)

theorem advance_inj {c : Cursor} (hm : m ≤ c.ahead.length) (hn : n ≤ c.ahead.length)
    (h : c.advance m = c.advance n) : m = n := by
  have hlen := congrArg (fun c => c.ahead.length) h
  simp only [Cursor.ahead_advance, List.length_drop] at hlen
  omega

theorem advance_within (hm : m ≤ u.length) (b t : Text) :
    (⟨b, u ++ t⟩ : Cursor).advance m = ⟨(u.take m).reverse ++ b, u.drop m ++ t⟩ := by
  rw [Cursor.advance, List.take_append_of_le_length hm, List.drop_append_of_le_length hm]

/-- A reader that goes on from a place ends behind it. -/
theorem le_of_onward {c d : Cursor} (h : (c.advance m).Onward d) (hd : d = c.advance n)
    (hn : n ≤ c.ahead.length) (hm : m ≤ c.ahead.length) : m ≤ n := by
  have hlen := h.length_le
  rw [hd, Cursor.ahead_advance, Cursor.ahead_advance, List.length_drop, List.length_drop] at hlen
  omega

theorem Kept.congr (h : Kept t t' S u) (ht : ∀ b, R ⟨b, u ++ t⟩ = S ⟨b, u ++ t⟩)
    (ht' : ∀ b, R ⟨b, u ++ t'⟩ = S ⟨b, u ++ t'⟩) : Kept t t' R u := by
  intro b n hn hR
  rw [ht] at hR
  rw [ht, ht']
  exact h b n hn hR

theorem kept_none (hm : m ≤ u.length) : Kept t t' (fun c => (none, c.advance m)) u := by
  intro b n hn hR
  have hle : u.length ≤ (u ++ t).length := by simp
  obtain rfl := advance_inj (c := ⟨b, u ++ t⟩) (hm.trans hle) (hn.trans hle) hR
  exact ⟨rfl, fun _ => rfl⟩

theorem kept_stay : Kept t t' (fun c => (none, c)) u :=
  (kept_none (Nat.zero_le _)).congr (fun b => by rw [Cursor.advance_zero]) fun b => by
    rw [Cursor.advance_zero]

theorem Kept.advance (hR : ∀ c : Cursor, c.Onward (R c).2) (hm : m ≤ u.length)
    (h : Kept t t' R (u.drop m)) : Kept t t' (fun c => R (c.advance m)) u := by
  intro b n hn hend
  have hle : u.length ≤ (⟨b, u ++ t⟩ : Cursor).ahead.length := by simp
  have hmn : m ≤ n := le_of_onward (hR _) hend (hn.trans hle) (hm.trans hle)
  obtain ⟨n, rfl⟩ := Nat.exists_eq_add_of_le hmn
  dsimp only at hend ⊢
  rw [← Cursor.advance_advance, advance_within hm] at hend
  rw [← Cursor.advance_advance, advance_within hm, advance_within hm, ← List.drop_drop]
  exact h _ n (by rw [List.length_drop]; omega) hend

/-- A reader that goes on from a place in `t` does not end before `t`. -/
theorem kept_of_beyond (hm : u.length < m) (hle : m ≤ (u ++ t).length)
    (h : ∀ b, ((⟨b, u ++ t⟩ : Cursor).advance m).Onward (R ⟨b, u ++ t⟩).2) : Kept t t' R u := by
  intro b n hn hend
  have hnle : n ≤ (u ++ t).length := hn.trans (by simp)
  have := le_of_onward (c := ⟨b, u ++ t⟩) (h b) hend hnle hle
  omega

theorem triviaEnd_le (t : Text) : triviaEnd t ≤ t.length := by
  fun_induction triviaEnd t with
  | case1 => exact Nat.le_refl _
  | case2 x t hx ih =>
    rw [List.length_cons]
    omega
  | case3 t n hn hx ih =>
    have hle := commentEnd?_le hn
    rw [List.length_drop] at ih
    rw [List.length_cons]
    omega
  | case4 => exact Nat.zero_le _
  | case5 => exact Nat.zero_le _

theorem skipTrivia_here {c : Cursor} (h : triviaEnd c.ahead = 0) : skipTrivia c = c := by
  rw [skipTrivia, h, Cursor.advance_zero]

/-- The literal of a declaration, or the rest of its clause. -/
def literalOrClause (kind : Kind) (c : Cursor) : Option Import × Cursor :=
  if atQuote c then literalOrQuote kind c else clause kind c

theorem onward_literalOrClause (kind : Kind) (c : Cursor) : c.Onward (literalOrClause kind c).2 := by
  unfold literalOrClause
  split
  · exact onward_literalOrQuote kind c
  · exact onward_clause kind c

/-- What follows a word of a clause. -/
def afterName (kind : Kind) (name : Text) (c : Cursor) : Option Import × Cursor :=
  if name = "from".toList then literalOrClause kind (skipTrivia c) else clause kind c

theorem onward_afterName (kind : Kind) (name : Text) (c : Cursor) :
    c.Onward (afterName kind name c).2 := by
  unfold afterName
  split
  · exact (onward_skipTrivia c).trans (onward_literalOrClause kind _)
  · exact onward_clause kind c

/-- A clause from a token on. -/
theorem clause_here {c : Cursor} {w : Text} (h : c.ahead = x :: w) (h0 : triviaEnd c.ahead = 0) :
    clause kind c =
      if x = '\x7b' then
        match w.findIdx? (· = '\x7d') with
        | some n => clause kind (c.advance (n + 2))
        | none => (none, c.finish)
      else if x = '*' || x = ',' then clause kind (c.advance 1)
      else if isWordStart x then
        afterName kind (x :: w.take (wordEnd w)) (c.advance (wordEnd w + 1))
      else (none, c) := by
  have hs := skipTrivia_here h0
  rw [clause_cons (hs.symm ▸ h), hs, afterName, literalOrClause, clause_skipTrivia]
  simp only [Bool.and_eq_true, decide_eq_true_eq]
  split_ifs <;> first | rfl | simp_all

section

variable (hP : Tailed P) (hc : Continues P t t') (ho : 0 < triviaEnd t)
include hP hc ho

/-- The blanks and comments at the front end within `u`, or they go on into `t`. -/
theorem triviaEnd_kept (hu : P u) : u.length < triviaEnd (u ++ t) ∨
    (triviaEnd (u ++ t) < u.length ∧ triviaEnd (u ++ t') = triviaEnd (u ++ t)) := by
  rcases Nat.lt_or_ge u.length (triviaEnd (u ++ t)) with hlt | hle
  · exact Or.inl hlt
  · have hne : triviaEnd (u ++ t) ≠ u.length := by
      intro he
      have hdrop := triviaEnd_drop_triviaEnd (u ++ t)
      rw [he, List.drop_left] at hdrop
      omega
    exact Or.inr ⟨Nat.lt_of_le_of_ne hle hne,
      triviaEnd_front hP (commentEnd?_continues hc) (fun h0 => by omega) hu hle⟩

/-- A reader that begins with the next token. -/
theorem Kept.skipTrivia (hR : ∀ c : Cursor, c.Onward (R c).2) (hu : P u)
    (h : ∀ x v, P (x :: v) → (x :: v).length ≤ u.length → triviaEnd (x :: v ++ t) = 0 →
      triviaEnd (x :: v ++ t') = 0 → Kept t t' R (x :: v)) :
    Kept t t' (fun c => R (Import.skipTrivia c)) u := by
  rcases triviaEnd_kept hP hc ho hu with hlt | ⟨hlt, he⟩
  · intro b n hn hend
    have hle : u.length ≤ (⟨b, u ++ t⟩ : Cursor).ahead.length := by simp
    have hmn := le_of_onward (hR _) hend (hn.trans hle) (triviaEnd_le _)
    dsimp only at hmn
    omega
  · obtain ⟨x, v, hv⟩ := List.exists_cons_of_ne_nil
      (l := u.drop (triviaEnd (u ++ t))) (by rw [Ne, List.drop_eq_nil_iff]; omega)
    have hzero := triviaEnd_drop_triviaEnd (u ++ t)
    have hzero' := triviaEnd_drop_triviaEnd (u ++ t')
    rw [List.drop_append_of_le_length hlt.le, hv] at hzero
    rw [he, List.drop_append_of_le_length hlt.le, hv] at hzero'
    have hkept := h x v (hv ▸ hP.drop hu _) (by rw [← hv, List.length_drop]; omega) hzero hzero'
    rw [← hv] at hkept
    refine Kept.congr (Kept.advance hR hlt.le hkept) (fun b => rfl) fun b => ?_
    rw [Import.skipTrivia]
    dsimp only
    rw [he]

/-! ### The readers of the scan -/

omit ho in
/-- A literal is closed within `u`, within `t`, or not at all. -/
theorem literal?_kept (kind : Kind) (hx : isQuote x) (hu : P (x :: v)) :
    (∀ b, literal? kind ⟨b, x :: v ++ t⟩ = none ∧ literal? kind ⟨b, x :: v ++ t'⟩ = none) ∨
      ∃ (m : Nat) (i : Text → Import), m ≤ (v ++ t).length ∧
        (∀ b, literal? kind ⟨b, x :: v ++ t⟩ =
          some (i b, (⟨b, x :: v ++ t⟩ : Cursor).advance (m + 1))) ∧
        (m ≤ v.length → ∀ b, literal? kind ⟨b, x :: v ++ t'⟩ =
          some (i b, (⟨b, x :: v ++ t'⟩ : Cursor).advance (m + 1))) := by
  have hv := hP x v hu
  cases hn : stringEnd? x (v ++ t) with
  | none =>
    have hn' := hc.string hv hx hn
    exact Or.inl fun b => ⟨by simp [literal?, hn], by simp [literal?, hn']⟩
  | some m =>
    refine Or.inr ⟨m, fun b => ⟨Text.bytes b, Text.bytes b + Text.bytes (x :: (v ++ t).take m),
      ((v ++ t).take m).dropLast, kind⟩, le_of_front (stringEnd?_front hx) hn, fun b => ?_,
      fun hle b => ?_⟩
    · simp [literal?, hn, Cursor.offset]
    · have hsame := eq_some_of_front (stringEnd?_front hx v t) (stringEnd?_front hx v t') hn hle
      rw [List.take_append_of_le_length hle]
      simp [literal?, hsame, Cursor.offset, List.take_append_of_le_length hle]

omit ho in
theorem kept_literalOrQuote (kind : Kind) (hx : isQuote x) (hu : P (x :: v)) :
    Kept t t' (literalOrQuote kind) (x :: v) := by
  rcases literal?_kept hP hc kind hx hu with hnone | ⟨m, i, hm, hsome, hsome'⟩
  · refine (kept_none (Nat.succ_pos _)).congr (fun b => ?_) fun b => ?_
    · rw [literalOrQuote, (hnone b).1]
    · rw [literalOrQuote, (hnone b).2]
  · intro b n hn hend
    rw [literalOrQuote, hsome] at hend
    have hle : n ≤ (x :: v ++ t).length := hn.trans (by simp)
    obtain rfl := advance_inj (c := ⟨b, x :: v ++ t⟩) (Nat.succ_le_succ hm) hle hend
    rw [literalOrQuote, literalOrQuote, hsome, hsome' (Nat.le_of_succ_le_succ hn)]
    exact ⟨rfl, fun _ => rfl⟩

omit hP hc in
/-- A brace list that is not closed before `t`. -/
theorem kept_open_list (kind : Kind) (hm : v.findIdx? (· = '\x7d') = none)
    (hzero : triviaEnd ('\x7b' :: v ++ t) = 0) : Kept t t' (clause kind) ('\x7b' :: v) := by
  have hcons (b : Text) : clause kind ⟨b, '\x7b' :: v ++ t⟩ = _ := clause_here rfl hzero
  simp only [if_pos, List.append_eq, List.findIdx?_append, hm, Option.none_or] at hcons
  have hpos : 0 < t.length := Nat.lt_of_lt_of_le ho (triviaEnd_le t)
  cases hi : t.findIdx? (· = '\x7d') with
  | some i =>
    obtain ⟨hlt, -⟩ := List.findIdx?_eq_some_iff_getElem.mp hi
    simp only [hi, Option.map_some] at hcons
    refine kept_of_beyond (m := i + v.length + 2) (by rw [List.length_cons]; omega) ?_ fun b => ?_
    · rw [List.length_append, List.length_cons]
      omega
    · rw [hcons]
      exact onward_clause kind _
  | none =>
    simp only [hi, Option.map_none] at hcons
    refine kept_of_beyond ?_ (Nat.le_refl _) fun b => ?_
    · rw [List.length_append]
      omega
    · rw [hcons]
      exact .refl _

/-- A name of a clause, if the clause behind it is kept. -/
theorem kept_afterName (kind : Kind) (name : Text) (hu : P u)
    (h : ∀ w, w.length ≤ u.length → P w → Kept t t' (clause kind) w) :
    Kept t t' (afterName kind name) u := by
  by_cases hf : name = "from".toList
  · refine Kept.congr (Kept.skipTrivia hP hc ho (onward_literalOrClause kind) hu ?_)
      (fun b => if_pos hf) fun b => if_pos hf
    intro y w hyw hlen _ _
    by_cases hy : isQuote y
    · exact (kept_literalOrQuote hP hc kind hy hyw).congr (fun b => if_pos hy) fun b => if_pos hy
    · exact (h _ hlen hyw).congr (fun b => if_neg hy) fun b => if_neg hy
  · exact (h u (Nat.le_refl _) hu).congr (fun b => if_neg hf) fun b => if_neg hf

theorem kept_clause (kind : Kind) (hu : P u) : Kept t t' (clause kind) u := by
  have hclause (c : Cursor) : c.Onward (clause kind c).2 := onward_clause kind c
  generalize hl : u.length = l
  induction l using Nat.strongRecOn generalizing u with
  | ind l ih =>
    refine Kept.congr (S := fun c => clause kind (Import.skipTrivia c)) ?_
      (fun b => (clause_skipTrivia kind _).symm) fun b => (clause_skipTrivia kind _).symm
    refine Kept.skipTrivia hP hc ho hclause hu fun x v hxv hle hzero hzero' => ?_
    rw [List.length_cons, hl] at hle
    have hnext {m : Nat} (hm : m ≤ v.length) :
        Kept t t' (fun c => clause kind (c.advance (m + 1))) (x :: v) :=
      Kept.advance hclause (Nat.succ_le_succ hm)
        (ih _ (by rw [List.drop_succ_cons, List.length_drop]; omega) (hP.drop hxv _) rfl)
    have hcons (b : Text) : clause kind ⟨b, x :: v ++ t⟩ = _ := clause_here rfl hzero
    have hcons' (b : Text) : clause kind ⟨b, x :: v ++ t'⟩ = _ := clause_here rfl hzero'
    have hv := hP x v hxv
    by_cases h1 : x = '\x7b'
    · subst h1
      cases hm : v.findIdx? (· = '\x7d') with
      | some m =>
        obtain ⟨hlt, -⟩ := List.findIdx?_eq_some_iff_getElem.mp hm
        simp only [if_pos, List.append_eq, List.findIdx?_append, hm, Option.some_or] at hcons hcons'
        exact (hnext hlt).congr hcons hcons'
      | none => exact kept_open_list ho kind hm hzero
    simp only [if_neg h1] at hcons hcons'
    by_cases h2 : (x = '*' || x = ',') = true
    · simp only [if_pos h2] at hcons hcons'
      exact (hnext (Nat.zero_le _)).congr hcons hcons'
    simp only [if_neg h2] at hcons hcons'
    by_cases h3 : isWordStart x
    · simp only [if_pos h3, List.append_eq] at hcons hcons'
      by_cases hw : wordEnd (v ++ t) ≤ v.length
      · simp only [hc.word hv hw, List.take_append_of_le_length hw] at hcons hcons'
        refine Kept.congr (Kept.advance (onward_afterName kind _) (Nat.succ_le_succ hw) ?_) hcons hcons'
        rw [List.drop_succ_cons]
        refine kept_afterName hP hc ho kind _ (hP.drop hv _) fun w hlen hPw => ?_
        rw [List.length_drop] at hlen
        exact ih _ (by omega) hPw rfl
      · -- the word goes on in `t`
        have hmax := wordEnd_le (v ++ t)
        refine kept_of_beyond (m := wordEnd (v ++ t) + 1) (by rw [List.length_cons]; omega) ?_ fun b => ?_
        · rw [List.cons_append, List.length_cons]
          omega
        · rw [hcons]
          exact onward_afterName kind _ _
    · simp only [if_neg h3] at hcons hcons'
      exact kept_stay.congr hcons hcons'

omit ho in
theorem kept_argumentHere (hu : P (x :: v)) : Kept t t' argumentHere (x :: v) := by
  by_cases hx : isQuote x
  · have hquote (b w : Text) : atQuote ⟨b, x :: v ++ w⟩ = true := hx
    rcases literal?_kept hP hc .dynamic hx hu with hnone | ⟨m, i, hm, hsome, hsome'⟩
    · refine kept_stay.congr (fun b => ?_) fun b => ?_
      · rw [argumentHere, if_pos (hquote b t), (hnone b).1]
      · rw [argumentHere, if_pos (hquote b t'), (hnone b).2]
    · intro b n hn hend
      rw [argumentHere, if_pos (hquote b t), hsome] at hend
      have hle : n ≤ (x :: v ++ t).length := hn.trans (by simp)
      obtain rfl := advance_inj (c := ⟨b, x :: v ++ t⟩) (Nat.succ_le_succ hm) hle hend
      have hmv := Nat.le_of_succ_le_succ hn
      rw [argumentHere, argumentHere, if_pos (hquote b t), if_pos (hquote b t'), hsome, hsome' hmv]
      refine ⟨rfl, fun hnext => ?_⟩
      have hclose (w : Text) :
          (Import.skipTrivia ((⟨b, x :: v ++ w⟩ : Cursor).advance (m + 1))).ahead.head? =
            (Import.skipTrivia ⟨[], v.drop m ++ w⟩).ahead.head? := by
        rw [advance_within hn]
        rfl
      dsimp only
      rw [hclose, hclose]
      rw [SameNext, List.drop_succ_cons] at hnext
      rw [hnext]
  · exact kept_stay.congr (fun b => if_neg hx) fun b => if_neg hx

theorem kept_dynamicArgument (hu : P u) : Kept t t' dynamicArgument u :=
  Kept.skipTrivia hP hc ho onward_argumentHere hu fun _ _ hxv _ _ _ => kept_argumentHere hP hc hxv

theorem kept_afterImport (hu : P u) : Kept t t' afterImport u := by
  refine Kept.skipTrivia hP hc ho onward_importHere hu fun x v hxv _ _ _ => ?_
  by_cases hq : isQuote x
  · exact (kept_literalOrQuote hP hc .static hq hxv).congr (fun b => if_pos hq) fun b => if_pos hq
  by_cases hp : some x = some '('
  · refine Kept.congr (Kept.advance (m := 1) onward_dynamicArgument (Nat.succ_pos _)
      (kept_dynamicArgument hP hc ho (hP x v hxv))) (fun b => ?_) fun b => ?_
    · exact (if_neg hq).trans (if_pos hp)
    · exact (if_neg hq).trans (if_pos hp)
  by_cases hd : some x = some '.'
  · refine (kept_none (u := x :: v) (Nat.succ_pos _)).congr (fun b => ?_) fun b => ?_
    · exact (if_neg hq).trans ((if_neg hp).trans (if_pos hd))
    · exact (if_neg hq).trans ((if_neg hp).trans (if_pos hd))
  · refine (kept_clause hP hc ho .static hxv).congr (fun b => ?_) fun b => ?_
    · exact (if_neg hq).trans ((if_neg hp).trans (if_neg hd))
    · exact (if_neg hq).trans ((if_neg hp).trans (if_neg hd))

theorem kept_afterExport (hu : P u) : Kept t t' afterExport u := by
  refine Kept.skipTrivia hP hc ho onward_exportHere hu fun x v hxv _ _ _ => ?_
  by_cases hx : some x = some '*' ∨ some x = some '\x7b'
  · exact (kept_clause hP hc ho .reexport hxv).congr (fun b => if_pos hx) fun b => if_pos hx
  · exact kept_stay.congr (fun b => if_neg hx) fun b => if_neg hx

/-- What follows a word. -/
theorem kept_afterWord (word : Text) (hu : P u) : Kept t t' (afterWord word) u := by
  by_cases h1 : word = "import".toList
  · exact (kept_afterImport hP hc ho hu).congr (fun b => if_pos h1) fun b => if_pos h1
  by_cases h2 : word = "export".toList
  · exact (kept_afterExport hP hc ho hu).congr (fun b => (if_neg h1).trans (if_pos h2))
      fun b => (if_neg h1).trans (if_pos h2)
  · exact kept_stay.congr (fun b => (if_neg h1).trans (if_neg h2))
      fun b => (if_neg h1).trans (if_neg h2)

/-- **A turn that ends before `t`** ends at the same place before `t'`. -/
theorem kept_step (hu : P (x :: v)) :
    Kept t t' (fun c => step c x (c.ahead.drop 1)) (x :: v) := by
  intro b n hn hend
  have hnext (w : Text) : step ⟨b, x :: v ++ w⟩ x ((x :: v ++ w).drop 1) = step ⟨b, x :: v ++ w⟩ x (v ++ w) :=
    rfl
  have hle : (x :: v).length ≤ (x :: v ++ t).length := by simp
  have hsize := Lexeme.size_read_le b x (v ++ t)
  have honward : ((⟨b, x :: v ++ t⟩ : Cursor).advance ((Lexeme.read b x (v ++ t)).size + 1)).Onward
      (step ⟨b, x :: v ++ t⟩ x (v ++ t)).2 := by
    unfold step
    dsimp only
    split
    · exact onward_afterWord _ _
    · exact Cursor.Onward.refl _
  have hmn := le_of_onward honward hend (hn.trans hle) (Nat.succ_le_succ hsize)
  have hlv : (Lexeme.read b x (v ++ t)).size ≤ v.length := Nat.le_of_succ_le_succ (hmn.trans hn)
  have hread := Lexeme.read_continues hP hc hu hlv
  dsimp only at hend ⊢
  rw [hnext, step] at hend
  rw [hnext, hnext, step, step]
  dsimp only at hend ⊢
  rw [hread, List.take_append_of_le_length hlv, List.take_append_of_le_length hlv]
  rw [List.take_append_of_le_length hlv] at hend
  split_ifs at hend ⊢ with hw
  · refine Kept.advance (onward_afterWord _) (hmn.trans hn) (kept_afterWord hP hc ho _ ?_) b n hn hend
    rw [List.drop_succ_cons]
    exact hP.drop (hP x v hu) _
  · exact kept_none (hmn.trans hn) b n hn hend

/-! ### The places of the scan -/

omit hP hc ho in
theorem Turn.next_eq {c d : Cursor} {found : Option Import} (h : Turn c found d) {w : Text}
    (hw : c.ahead = x :: w) : d = (step c x w).2 := by
  obtain ⟨y, z, hz, hs⟩ := h
  rw [hw] at hz
  obtain ⟨rfl, rfl⟩ := List.cons.inj hz
  rw [hs]

end

/-- The scan comes from one place to the other. -/
def Leads : Cursor → Cursor → Prop := Relation.ReflTransGen fun c d => ∃ found, Turn c found d

theorem Leads.onward {c d : Cursor} (h : Leads c d) : c.Onward d := by
  induction h with
  | refl => exact Cursor.Onward.refl c
  | tail _ ht ih =>
    obtain ⟨found, ht⟩ := ht
    exact ih.trans ht.onward

/-- From a place before the end, the scan goes on with a turn. -/
theorem Leads.next {c d : Cursor} {w : Text} (h : Leads c d) (hw : c.ahead = x :: w)
    (hlt : d.ahead.length < c.ahead.length) : Leads (step c x w).2 d := by
  rcases Relation.ReflTransGen.cases_head h with rfl | ⟨e, ⟨found, ht⟩, he⟩
  · exact absurd hlt (Nat.lt_irrefl _)
  · rw [← ht.next_eq hw]
    exact he

theorem ahead_skipTrivia (b t : Text) : (skipTrivia ⟨b, t⟩).ahead = t.drop (triviaEnd t) := rfl

theorem sameNext_space (hx : isSpace x) (h : SameNext t t' v) : SameNext t t' (x :: v) := by
  have hskip (r : Text) : (skipTrivia ⟨[], x :: v ++ r⟩).ahead = (skipTrivia ⟨[], v ++ r⟩).ahead := by
    rw [ahead_skipTrivia, ahead_skipTrivia, List.cons_append, triviaEnd, if_pos hx, Nat.add_comm,
      List.drop_succ_cons]
  rw [SameNext, hskip, hskip]
  exact h

theorem sameNext_comment (hn : commentEnd? (v ++ t) = some n) (hn' : commentEnd? (v ++ t') = some n)
    (hle : n ≤ v.length) (h : SameNext t t' (v.drop n)) : SameNext t t' ('/' :: v) := by
  have hskip {r : Text} (hr : commentEnd? (v ++ r) = some n) :
      (skipTrivia ⟨[], '/' :: v ++ r⟩).ahead = (skipTrivia ⟨[], v.drop n ++ r⟩).ahead := by
    rw [ahead_skipTrivia, ahead_skipTrivia, List.cons_append, triviaEnd, if_neg (by decide), if_pos rfl,
      hr]
    dsimp only
    rw [Nat.add_comm 1 n, Nat.add_right_comm, List.drop_succ_cons, ← List.drop_drop,
      List.drop_append_of_le_length hle]
  rw [SameNext, hskip hn, hskip hn']
  exact h

/-- What opens neither a blank nor a comment comes next itself. -/
theorem sameNext_solid (hx : ¬ isSpace x)
    (h : x = '/' → commentEnd? (v ++ t) = none ∧ commentEnd? (v ++ t') = none) :
    SameNext t t' (x :: v) := by
  have hskip {r : Text} (hr : x = '/' → commentEnd? (v ++ r) = none) :
      (skipTrivia ⟨[], x :: v ++ r⟩).ahead.head? = some x := by
    rw [ahead_skipTrivia, List.cons_append, triviaEnd, if_neg hx]
    split_ifs with hslash
    · rw [hr hslash]
      rfl
    · rfl
  rw [SameNext, hskip fun hs => (h hs).1, hskip fun hs => (h hs).2]

section

variable (hP : Tailed P) (hc : Continues P t t')
include hP hc

/-- Where the scan comes to `t`, a reader that looks for the next token finds it there. -/
theorem sameNext_of_leads (hs : SameNext t t' []) (hv : P v)
    (h : Leads ⟨b, v ++ t⟩ ⟨v.reverse ++ b, t⟩) : SameNext t t' v := by
  generalize hl : v.length = l
  induction l using Nat.strongRecOn generalizing b v with
  | ind l ih =>
    cases v with
    | nil => exact hs
    | cons x v =>
      rw [List.length_cons] at hl
      have hv' := hP x v hv
      have hturn : Leads (step ⟨b, x :: (v ++ t)⟩ x (v ++ t)).2 ⟨(x :: v).reverse ++ b, t⟩ :=
        h.next rfl (by simp only [List.length_cons, List.length_append]; omega)
      by_cases hx : isSpace x
      · have hstep : (step ⟨b, x :: (v ++ t)⟩ x (v ++ t)).2 = ⟨x :: b, v ++ t⟩ := by
          rw [step, Lexeme.read_plain (isPlain_of_isSpace hx)]
          rfl
        rw [hstep, List.reverse_cons, List.append_assoc] at hturn
        exact sameNext_space hx (ih _ (by omega) hv' hturn rfl)
      by_cases hslash : x = '/' ∧ (commentEnd? (v ++ t)).isSome
      · obtain ⟨rfl, hsome⟩ := hslash
        obtain ⟨n, hn⟩ := Option.isSome_iff_exists.mp hsome
        have hstep : (step ⟨b, '/' :: (v ++ t)⟩ '/' (v ++ t)).2 =
            (⟨b, '/' :: v ++ t⟩ : Cursor).advance (n + 1) := by
          rw [step, Lexeme.read_comment hn]
          rfl
        have hle : n ≤ v.length := by
          have hlen := hturn.onward.length_le
          have hmax := commentEnd?_le hn
          rw [hstep, Cursor.ahead_advance] at hlen
          simp only [List.length_drop, List.length_cons, List.length_append, List.cons_append] at hlen hmax
          omega
        have hsame : commentEnd? (v ++ t') = some n := by
          rw [commentEnd?_continues hc hv (fun m hm => by rw [hn] at hm; cases hm; exact hle), hn]
        have hrev : ('/' :: v).reverse ++ b =
            (v.drop n).reverse ++ ((('/' :: v).take (n + 1)).reverse ++ b) := by
          rw [← List.append_assoc, ← List.reverse_append]
          exact congrArg (fun w : Text => w.reverse ++ b)
            (List.take_append_drop (n + 1) ('/' :: v)).symm
        rw [hstep, advance_within (Nat.succ_le_succ hle), hrev] at hturn
        exact sameNext_comment hn hsame hle
          (ih _ (by rw [List.length_drop]; omega) (hP.drop hv' n) hturn rfl)
      · refine sameNext_solid hx fun hs => ?_
        subst hs
        have hnone : commentEnd? (v ++ t) = none := by simpa using hslash
        exact ⟨hnone, hc.comment hv hnone⟩

end

theorem Reached.kept_of_leads {p : Text} {is : List Import} {d : Cursor} (hP : Tailed P)
    (hc : Continues P t t') (ho : 0 < triviaEnd t) (hp : P p) (h : Reached (p ++ t) is d)
    (hd : d = ⟨b, u ++ t⟩) (hlead : Leads d ⟨p.reverse, t⟩) :
    ∃ is', Reached (p ++ t') is' ⟨b, u ++ t'⟩ ∧ (SameNext t t' [] → is' = is) := by
  induction h generalizing b u with
  | start =>
    obtain ⟨rfl, hu⟩ := Cursor.mk.inj hd
    obtain rfl := List.append_cancel_right hu
    exact ⟨[], .start, fun _ => rfl⟩
  | @turn is c d found hr ht ih =>
    have hpos : 0 < t.length := Nat.lt_of_lt_of_le ho (triviaEnd_le t)
    have hlt := ht.length_lt
    have hend : d.ahead.length = u.length + t.length := by rw [hd, List.length_append]
    obtain ⟨n, hn⟩ := ht.onward
    -- the turn begins before the end of `p`
    obtain ⟨w, hw⟩ := exists_ahead_of_onward hr.onward (by omega)
    have hcahead : c.ahead = w ++ t := by rw [hw]
    rw [hcahead, List.length_append] at hlt
    obtain ⟨x, v, rfl⟩ := List.exists_cons_of_length_pos (l := w) (by omega)
    have hnlen : n ≤ (x :: v).length := by
      rw [hn, Cursor.ahead_advance, hcahead, List.length_drop, List.length_append] at hend
      omega
    have hwhole : c.behind.reverse ++ (x :: v) = p := by
      have hsplit := hr.onward.whole_eq
      rw [Cursor.whole, hcahead, ← List.append_assoc, Cursor.whole_start] at hsplit
      exact List.append_cancel_right hsplit
    have hPv : P (x :: v) := by
      have hdrop := hP.drop hp c.behind.reverse.length
      rwa [← hwhole, List.drop_left] at hdrop
    obtain ⟨is', hr', his⟩ := ih hw (.head ⟨found, ht⟩ hlead)
    have hstep : step ⟨c.behind, x :: (v ++ t)⟩ x (v ++ t) = (found, d) := by
      obtain ⟨y, z, hz, hs⟩ := ht
      rw [hcahead] at hz
      obtain ⟨rfl, rfl⟩ := List.cons.inj hz
      rwa [hw] at hs
    obtain ⟨hend', hfound⟩ := kept_step hP hc ho hPv c.behind n hnlen
      ((congrArg Prod.snd hstep).trans (by rw [hn, ← hw]))
    rw [hw, advance_within hnlen, hd] at hn
    obtain ⟨rfl, hu⟩ := Cursor.mk.inj hn
    obtain rfl := List.append_cancel_right hu
    rw [advance_within hnlen] at hend'
    refine ⟨is' ++ (step ⟨c.behind, x :: (v ++ t')⟩ x (v ++ t')).1.toList,
      hr'.turn ⟨x, v ++ t', rfl, Prod.ext rfl hend'⟩, fun hs => ?_⟩
    have hPu : P ((x :: v).drop n) := hP.drop hPv n
    have hback : p.reverse = ((x :: v).drop n).reverse ++ (((x :: v).take n).reverse ++ c.behind) := by
      rw [← hwhole, ← List.append_assoc, ← List.reverse_append, List.take_append_drop,
        List.reverse_append, List.reverse_reverse]
    rw [hd, hback] at hlead
    have hsame := hfound (sameNext_of_leads hP hc hs hPu hlead)
    rw [his hs]
    congr 2
    exact hsame.trans (congrArg Prod.fst hstep)

/-- **The places of the scan before `t` are places before `t'`.** -/
theorem Reached.kept {p : Text} {is : List Import} (hP : Tailed P) (hc : Continues P t t')
    (ho : 0 < triviaEnd t) (hp : P p) (h : Reached (p ++ t) is ⟨p.reverse, t⟩) :
    ∃ is', Reached (p ++ t') is' ⟨p.reverse, t'⟩ ∧ (SameNext t t' [] → is' = is) :=
  Reached.kept_of_leads (u := []) hP hc ho hp h rfl .refl

end Unbundled.Import
