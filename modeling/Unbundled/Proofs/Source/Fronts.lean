import Unbundled.Proofs.Source.Lexemes

/-! # Readers and fronts of a text

What a reader finds in a text depends on the text up to the place where it ends, and for some readers
on what follows there. For each of them it is said here what a front `u` of a text `u ++ t` tells.

* `…_front`: a comment, a string or a regular expression that is closed in the front is closed there in
  the whole text, and none else.
* `Steady`: the conditions under which a lexeme that ends in the front is the same before two texts `t`
  and `t'` (`Steady.readFlat_eq`); `Nesting.step_front`, `templateEnd?_front` and `Lexeme.read_front`
  carry this over to template literals.
* `Lexeme.size_read_le`: a lexeme lies within its text. -/

namespace Unbundled.Source

variable {behind s t t' u v : Text} {c q x : Char} {n : Nat}

/-! ### Regular expressions and words -/

theorem regexEnd?_escape (inBrackets : Bool) (c : Char) (t : Text) :
    regexEnd? inBrackets ('\\' :: c :: t) = (regexEnd? inBrackets t).map (· + 2) := by
  rw [regexEnd?]

theorem regexEnd?_cons {inBrackets : Bool} (h : c ≠ '\\') (t : Text) :
    regexEnd? inBrackets (c :: t) =
      if c = '\n' then none
      else if c = '[' then (regexEnd? true t).map (· + 1)
      else if c = ']' then (regexEnd? false t).map (· + 1)
      else if c = '/' && !inBrackets then some 1
      else (regexEnd? inBrackets t).map (· + 1) := by
  rw [regexEnd?]
  exact fun _ _ hc _ => h hc

theorem wordEnd_le (t : Text) : wordEnd t ≤ t.length := (List.takeWhile_prefix isWordChar).length_le

/-! ### What is closed within a front

Each reader finds in the front of a text what it finds in the whole text, if that ends in time. -/

theorem filter_map_add (o : Option Nat) (k j : Nat) :
    (o.map (· + j)).filter (· ≤ k + j) = (o.filter (· ≤ k)).map (· + j) := by
  cases o with
  | none => rfl
  | some n => by_cases h : n ≤ k <;> simp [Option.filter, h]

theorem filter_map_lt (o : Option Nat) {k j : Nat} (h : k < j) :
    (o.map (· + j)).filter (· ≤ k) = none := by
  rw [Option.filter_eq_none_iff]
  intro n hn
  obtain ⟨m, -, rfl⟩ := Option.map_eq_some_iff.mp hn
  simp
  omega

theorem lineEnd?_front (u t : Text) :
    (lineEnd? (u ++ t)).filter (· ≤ u.length) = lineEnd? u := by
  fun_induction lineEnd? u with
  | case1 =>
    cases t with
    | nil => rfl
    | cons c t =>
      rw [List.nil_append, lineEnd?]
      split
      · rfl
      · exact filter_map_lt _ Nat.one_pos
  | case2 u => simp [lineEnd?, Option.filter]
  | case3 c u hc ih =>
    rw [List.cons_append, lineEnd?, if_neg hc, List.length_cons, filter_map_add, ih]

theorem blockEnd?_cons (h : ∀ v, c = '*' → u = '/' :: v → False) :
    blockEnd? (c :: u) = (blockEnd? u).map (· + 1) := by
  rw [blockEnd?]
  exact h

theorem blockEnd?_front (u t : Text) :
    (blockEnd? (u ++ t)).filter (· ≤ u.length) = blockEnd? u := by
  fun_induction blockEnd? u with
  | case1 u => simp [blockEnd?, Option.filter]
  | case2 c u hne ih =>
    rw [List.cons_append, List.length_cons]
    by_cases hend : u = [] ∧ c = '*' ∧ ∃ v, t = '/' :: v
    · -- the closing mark lies half in the front
      obtain ⟨rfl, rfl, v, rfl⟩ := hend
      rfl
    · rw [blockEnd?_cons, filter_map_add, ih]
      intro v hc hv
      cases u with
      | nil => exact hend ⟨rfl, hc, v, hv⟩
      | cons d u =>
        rw [List.cons_append] at hv
        exact hne u hc (by rw [(List.cons.inj hv).1])
  | case3 =>
    cases t with
    | nil => rfl
    | cons c t =>
      rw [List.nil_append]
      unfold blockEnd?
      split
      · rfl
      · exact filter_map_lt _ Nat.one_pos
      · rfl

theorem stringEnd?_front (hq : isQuote q) (u t : Text) :
    (stringEnd? q (u ++ t)).filter (· ≤ u.length) = stringEnd? q u := by
  fun_induction stringEnd? q u with
  | case1 c u ih =>
    rw [List.cons_append, List.cons_append, stringEnd?_escape, List.length_cons, List.length_cons,
      Nat.add_assoc, filter_map_add, ih]
  | case2 u _ => rw [List.cons_append, stringEnd?_cons (by decide), if_pos rfl]; rfl
  | case3 u _ hn =>
    have hb : q ≠ '\\' := by rintro rfl; exact absurd hq (by decide)
    rw [List.cons_append, stringEnd?_cons hb, if_neg hn, if_pos rfl]
    simp [Option.filter]
  | case4 c u hne hn hc ih =>
    rw [List.cons_append, List.length_cons]
    by_cases hb : c = '\\'
    · -- the backslash is the last character of the front
      subst hb
      cases u with
      | nil =>
        cases t with
        | nil => simp [stringEnd?, hc]
        | cons d t =>
          rw [List.nil_append, stringEnd?_escape]
          exact filter_map_lt _ Nat.one_lt_two
      | cons d u => exact absurd rfl (hne d u rfl)
    · rw [stringEnd?_cons hb, if_neg hn, if_neg hc, filter_map_add, ih]
  | case5 =>
    cases t with
    | nil => rfl
    | cons c t =>
      rw [List.nil_append]
      unfold stringEnd?
      split
      · exact filter_map_lt _ Nat.two_pos
      · split
        · rfl
        split
        · rfl
        · exact filter_map_lt _ Nat.one_pos
      · rfl

theorem regexEnd?_front (inBrackets : Bool) (u t : Text) :
    (regexEnd? inBrackets (u ++ t)).filter (· ≤ u.length) = regexEnd? inBrackets u := by
  fun_induction regexEnd? inBrackets u with
  | case1 inBrackets c u ih =>
    rw [List.cons_append, List.cons_append, regexEnd?_escape, List.length_cons, List.length_cons,
      Nat.add_assoc, filter_map_add, ih]
  | case2 inBrackets u _ => rw [List.cons_append, regexEnd?_cons (by decide), if_pos rfl]; rfl
  | case3 inBrackets u _ _ ih =>
    rw [List.cons_append, regexEnd?_cons (by decide), if_neg (by decide), if_pos rfl,
      List.length_cons, filter_map_add, ih]
  | case4 inBrackets u _ _ _ ih =>
    rw [List.cons_append, regexEnd?_cons (by decide), if_neg (by decide), if_neg (by decide),
      if_pos rfl, List.length_cons, filter_map_add, ih]
  | case5 inBrackets c u hne hn h1 h2 hs =>
    have hc : c ≠ '\\' := by
      rintro rfl
      exact absurd hs (by simp)
    rw [List.cons_append, regexEnd?_cons hc, if_neg hn, if_neg h1, if_neg h2, if_pos hs]
    simp [Option.filter]
  | case6 inBrackets c u hne hn h1 h2 hs ih =>
    rw [List.cons_append, List.length_cons]
    by_cases hb : c = '\\'
    · subst hb
      cases u with
      | nil =>
        cases t with
        | nil => rfl
        | cons d t =>
          rw [List.nil_append, regexEnd?_escape]
          exact filter_map_lt _ Nat.one_lt_two
      | cons d u => exact absurd rfl (hne d u rfl)
    · rw [regexEnd?_cons hb, if_neg hn, if_neg h1, if_neg h2, if_neg hs, filter_map_add, ih]
  | case7 =>
    cases t with
    | nil => rfl
    | cons c t =>
      rw [List.nil_append]
      unfold regexEnd?
      split
      · exact filter_map_lt _ Nat.two_pos
      · split
        · rfl
        split
        · exact filter_map_lt _ Nat.one_pos
        split
        · exact filter_map_lt _ Nat.one_pos
        split
        · rfl
        · exact filter_map_lt _ Nat.one_pos
      · rfl

/-- What a reader finds in the front of a text. -/
theorem eq_some_iff_of_front {o o' : Option Nat} {k : Nat} (h : o'.filter (· ≤ k) = o) :
    o = some n ↔ o' = some n ∧ n ≤ k := by
  rw [← h, Option.filter_eq_some_iff, decide_eq_true_eq]

theorem eq_none_of_front {o o' : Option Nat} {k : Nat} (h : o'.filter (· ≤ k) = o)
    (hn : o' = none) : o = none := by
  rw [← h, hn]
  rfl

/-- A reader that ends in the front does so whatever follows. -/
theorem eq_some_of_front {o o' o'' : Option Nat} {k : Nat} (h : o'.filter (· ≤ k) = o)
    (h' : o''.filter (· ≤ k) = o) (hn : o' = some n) (hle : n ≤ k) : o'' = some n :=
  ((eq_some_iff_of_front h').mp ((eq_some_iff_of_front h).mpr ⟨hn, hle⟩)).1

theorem wordEnd_front (h : wordEnd (u ++ t) ≤ u.length) : wordEnd u = wordEnd (u ++ t) := by
  unfold wordEnd at h ⊢
  rw [List.takeWhile_append] at h ⊢
  split at h
  · rename_i hu
    rw [if_pos hu]
    rw [List.length_append] at h ⊢
    omega
  · rename_i hu
    rw [if_neg hu]

theorem wordEnd_append_of_lt (h : wordEnd u < u.length) (t : Text) :
    wordEnd (u ++ t) = wordEnd u := by
  unfold wordEnd at h ⊢
  rw [List.takeWhile_append, if_neg h.ne]

/-! ### Sizes -/

theorem le_of_front {f : Text → Option Nat}
    (hf : ∀ u t, (f (u ++ t)).filter (· ≤ u.length) = f u) (h : f t = some n) : n ≤ t.length :=
  ((eq_some_iff_of_front (hf t [])).mp h).2

theorem commentEnd?_le (h : commentEnd? t = some n) : n ≤ t.length := by
  unfold commentEnd? at h
  split at h
  · rename_i t
    obtain rfl := Option.some.inj h
    cases hn : lineEnd? t with
    | none => simp [Nat.add_comm]
    | some m =>
      have := le_of_front lineEnd?_front hn
      simp
      omega
  · rename_i t
    obtain rfl := Option.some.inj h
    cases hn : blockEnd? t with
    | none => simp [Nat.add_comm]
    | some m =>
      have := le_of_front blockEnd?_front hn
      simp
      omega
  · exact absurd h (by simp)

theorem Lexeme.size_readFlat_le (behind : Text) (x : Char) (t : Text) :
    (readFlat behind x t).size ≤ t.length := by
  unfold readFlat
  split
  · split
    · rename_i hn
      exact commentEnd?_le hn
    split
    · split
      · rename_i n hn
        have h1 := le_of_front (regexEnd?_front false) hn
        have h2 := wordEnd_le (t.drop n)
        rw [List.length_drop] at h2
        dsimp only
        omega
      · exact Nat.zero_le _
    · exact Nat.zero_le _
  split
  · rename_i hq
    split
    · rename_i hn
      exact le_of_front (stringEnd?_front hq) hn
    · exact Nat.zero_le _
  split
  · exact wordEnd_le t
  · exact Nat.zero_le _

theorem templateEnd?_pos {place : Nesting} (hn : templateEnd? place behind t = some n) : 0 < n := by
  unfold templateEnd? at hn
  split at hn
  · exact absurd hn (by simp)
  · split at hn
    · exact (Option.some.inj hn) ▸ Nat.succ_pos _
    · obtain ⟨m, -, rfl⟩ := Option.map_eq_some_iff.mp hn
      exact Nat.succ_pos _

/-- A template literal is closed by a backtick. -/
theorem Nesting.step_eq_none {place : Nesting} (h : place.step behind x t = (none, n)) :
    n = 0 ∧ x = backtick := by
  cases place with
  | text outer =>
    dsimp only [step] at h
    split at h
    · exact absurd h (by simp)
    split at h
    · rename_i hx
      cases outer with
      | nil => exact ⟨(Prod.mk.inj h).2.symm, hx⟩
      | cons depth outer => exact absurd h (by simp)
    split at h <;> exact absurd h (by simp)
  | expression depth outer =>
    dsimp only [step] at h
    split at h
    · exact absurd h (by simp)
    split at h
    · cases depth <;> exact absurd h (by simp)
    split at h <;> exact absurd h (by simp)

theorem templateEnd?_le {place : Nesting} (h : templateEnd? place behind t = some n) :
    n ≤ t.length := by
  fun_induction templateEnd? place behind t generalizing n with
  | case1 => exact absurd h (by simp)
  | case2 place behind c t k hs =>
    obtain rfl := Option.some.inj h
    rw [(Nesting.step_eq_none hs).1]
    exact Nat.le_add_left 1 _
  | case3 place behind c t still k hs ih =>
    obtain ⟨m, hm, rfl⟩ := Option.map_eq_some_iff.mp h
    have h1 := ih hm
    have h2 := templateEnd?_pos hm
    rw [List.length_drop] at h1
    rw [List.length_cons]
    omega

/-- A lexeme lies within its text. -/
theorem Lexeme.size_read_le (behind : Text) (x : Char) (t : Text) :
    (read behind x t).size ≤ t.length := by
  unfold read
  split
  · cases hn : templateEnd? (.text []) (x :: behind) t with
    | none => exact Nat.le_refl _
    | some n => exact templateEnd?_le hn
  · exact size_readFlat_le behind x t

theorem commentEnd?_eq_none_iff : commentEnd? (c :: u) = none ↔ c ≠ '/' ∧ c ≠ '*' := by
  unfold commentEnd?
  split <;> simp_all

/-! ### Lexemes before two texts -/

/-- What runs to the end unless it is closed before. -/
theorem getD_front {f : Text → Option Nat} (hf : ∀ u t, (f (u ++ t)).filter (· ≤ u.length) = f u)
    (hnil : t = [] → t' = []) (hle : (f (u ++ t)).getD (u ++ t).length ≤ u.length) :
    (f (u ++ t')).getD (u ++ t').length = (f (u ++ t)).getD (u ++ t).length := by
  cases hn : f (u ++ t) with
  | some n =>
    rw [hn] at hle
    rw [eq_some_of_front (hf u t) (hf u t') hn hle]
    rfl
  | none =>
    rw [hn, Option.getD_none, List.length_append] at hle
    have ht : t = [] := List.length_eq_zero_iff.mp (by omega)
    rw [hnil ht, ← hn, ht]

/-- A comment that ends in the front does so whatever follows. -/
theorem commentEnd?_front (hnil : t = [] → t' = [])
    (hnone : commentEnd? (u ++ t) = none → commentEnd? (u ++ t') = none)
    (hn : ∀ n ∈ commentEnd? (u ++ t), n ≤ u.length) : commentEnd? (u ++ t') = commentEnd? (u ++ t) := by
  cases hc : commentEnd? (u ++ t) with
  | none => exact hnone hc
  | some n =>
    have hle := hn n hc
    rw [← hc]
    unfold commentEnd? at hc
    split at hc
    · rename_i w hw
      obtain rfl := Option.some.inj hc
      cases u with
      | nil => exact absurd hle (by simp)
      | cons c u =>
        rw [List.cons_append] at hw
        obtain ⟨rfl, rfl⟩ := List.cons.inj hw
        rw [List.length_cons] at hle
        rw [List.cons_append, List.cons_append, commentEnd?, commentEnd?,
          getD_front lineEnd?_front hnil (by omega)]
    · rename_i w hw
      obtain rfl := Option.some.inj hc
      cases u with
      | nil => exact absurd hle (by simp)
      | cons c u =>
        rw [List.cons_append] at hw
        obtain ⟨rfl, rfl⟩ := List.cons.inj hw
        rw [List.length_cons] at hle
        rw [List.cons_append, List.cons_append, commentEnd?, commentEnd?,
          getD_front blockEnd?_front hnil (by omega)]
    · exact absurd hc (by simp)

/-- At the place where a lexeme starts with `x :: u`, what is not closed when `t` follows is not closed
when `t'` follows. -/
structure Steady (t t' behind : Text) (x : Char) (u : Text) : Prop where
  nil : t = [] → t' = []
  comment : x = '/' → commentEnd? (u ++ t) = none → commentEnd? (u ++ t') = none
  string : isQuote x → stringEnd? x (u ++ t) = none → stringEnd? x (u ++ t') = none
  regex : x = '/' → commentEnd? (u ++ t) = none → regexAllowed behind →
    regexEnd? false (u ++ t) = none → regexEnd? false (u ++ t') = none
  word (n : Nat) : wordEnd (u.drop n ++ t) ≤ (u.drop n).length →
    wordEnd (u.drop n ++ t') = wordEnd (u.drop n ++ t)

theorem Steady.readFlat_eq (h : Steady t t' behind x u)
    (hle : (Lexeme.readFlat behind x (u ++ t)).size ≤ u.length) :
    Lexeme.readFlat behind x (u ++ t') = Lexeme.readFlat behind x (u ++ t) := by
  unfold Lexeme.readFlat at hle ⊢
  by_cases hs : x = '/'
  · subst hs
    rw [if_pos rfl] at hle
    rw [if_pos rfl, if_pos rfl]
    have hc : ∀ n ∈ commentEnd? (u ++ t), n ≤ u.length := by
      intro n hn
      rwa [hn] at hle
    rw [commentEnd?_front h.nil (h.comment rfl) hc]
    cases hn : commentEnd? (u ++ t) with
    | some n => rfl
    | none =>
      rw [hn] at hle
      by_cases hr : regexAllowed behind
      · dsimp only at hle ⊢
        rw [if_pos hr] at hle
        rw [if_pos hr, if_pos hr]
        cases hm : regexEnd? false (u ++ t) with
        | none => rw [h.regex rfl hn hr hm]
        | some m =>
          rw [hm] at hle
          dsimp only at hle
          have hmu : m ≤ u.length := by omega
          rw [List.drop_append_of_le_length hmu] at hle
          rw [eq_some_of_front (regexEnd?_front false u t) (regexEnd?_front false u t') hm hmu]
          dsimp only
          rw [List.drop_append_of_le_length hmu, List.drop_append_of_le_length hmu,
            h.word m (by rw [List.length_drop]; omega)]
      · dsimp only
        rw [if_neg hr, if_neg hr]
  rw [if_neg hs] at hle
  rw [if_neg hs, if_neg hs]
  by_cases hq : isQuote x
  · rw [if_pos hq] at hle
    rw [if_pos hq, if_pos hq]
    cases hm : stringEnd? x (u ++ t) with
    | none => rw [h.string hq hm]
    | some m =>
      rw [hm] at hle
      rw [eq_some_of_front (stringEnd?_front hq u t) (stringEnd?_front hq u t') hm hle]
  rw [if_neg hq] at hle
  rw [if_neg hq, if_neg hq]
  by_cases hw : isWordStart x
  · rw [if_pos hw] at hle
    rw [if_pos hw, if_pos hw]
    exact congrArg _ (h.word 0 hle)
  · rw [if_neg hw, if_neg hw]

/-- A part of a template literal is the same before both texts, if the lexeme of an expression is. -/
theorem Nesting.step_front {place : Nesting}
    (hbrace : x = '$' → (u ++ t).head? ≠ some '\x7b' → (u ++ t').head? ≠ some '\x7b')
    (hflat : ∀ depth outer, place = .expression depth outer →
      (Lexeme.readFlat behind x (u ++ t)).size ≤ u.length →
        Lexeme.readFlat behind x (u ++ t') = Lexeme.readFlat behind x (u ++ t))
    (hle : (place.step behind x (u ++ t)).2 ≤ u.length) :
    place.step behind x (u ++ t') = place.step behind x (u ++ t) := by
  cases place with
  | text outer =>
    dsimp only [step] at hle ⊢
    suffices hb : (x = '$' && (u ++ t').head? == some '\x7b') =
        (x = '$' && (u ++ t).head? == some '\x7b') by rw [hb]
    by_cases hx : x = '$'
    · subst hx
      cases u with
      | nil =>
        have hd : ([] ++ t).head? ≠ some '\x7b' := by
          intro hd
          rw [hd] at hle
          exact absurd hle (Nat.not_succ_le_zero 0)
        rw [beq_eq_false_iff_ne.mpr hd, beq_eq_false_iff_ne.mpr (hbrace rfl hd)]
      | cons c u => rfl
    · rw [decide_eq_false hx, Bool.false_and, Bool.false_and]
  | expression depth outer =>
    dsimp only [step] at hle ⊢
    by_cases h1 : x = '\x7b'
    · rw [if_pos h1, if_pos h1]
    by_cases h2 : x = '\x7d'
    · rw [if_neg h1, if_neg h1, if_pos h2, if_pos h2]
    by_cases h3 : x = backtick
    · rw [if_neg h1, if_neg h1, if_neg h2, if_neg h2, if_pos h3, if_pos h3]
    rw [if_neg h1, if_neg h2, if_neg h3] at hle
    rw [if_neg h1, if_neg h1, if_neg h2, if_neg h2, if_neg h3, if_neg h3, hflat depth outer rfl hle]

/-- A template literal that is closed within the front, if an invariant `I` of its parts makes every
part that ends in the front the same before both texts. -/
theorem templateEnd?_front {I : Nesting → Text → Text → Prop}
    (hI : ∀ (place : Nesting) (b : Text) (x : Char) (u : Text), I place b (x :: u) →
      (place.step b x (u ++ t)).2 ≤ u.length →
        place.step b x (u ++ t') = place.step b x (u ++ t) ∧
        ∀ still k, place.step b x (u ++ t) = (some still, k) →
          I still ((u.take k).reverse ++ x :: b) (u.drop k))
    {place : Nesting} (hu : I place behind u) (hn : templateEnd? place behind (u ++ t) = some n)
    (hle : n ≤ u.length) : templateEnd? place behind (u ++ t') = some n := by
  generalize hl : u.length = l at hle
  induction l using Nat.strongRecOn generalizing u place behind n with
  | ind l ih =>
    cases u with
    | nil =>
      have := templateEnd?_pos hn
      rw [List.length_nil] at hl
      omega
    | cons x u =>
      rw [List.length_cons] at hl
      rw [List.cons_append, templateEnd?] at hn ⊢
      rcases hs : place.step behind x (u ++ t) with ⟨_ | still, k⟩
      · rw [hs] at hn
        have hk : n = k + 1 := (Option.some.inj hn).symm
        rw [(hI place behind x u hu (by rw [hs]; dsimp only; omega)).1, hs]
        exact hn
      · rw [hs] at hn
        obtain ⟨m, hm, rfl⟩ := Option.map_eq_some_iff.mp hn
        have hk : k ≤ u.length := by omega
        obtain ⟨hsame, hstill⟩ := hI place behind x u hu (by rw [hs]; exact hk)
        rw [hsame, hs]
        dsimp only
        rw [List.drop_append_of_le_length hk, List.take_append_of_le_length hk] at hm ⊢
        rw [ih (u.drop k).length (by rw [List.length_drop]; omega) (hstill still k hs) hm rfl
          (by rw [List.length_drop]; omega)]
        rfl

/-- A lexeme that ends within the front, if its template literal or any other lexeme is the same. -/
theorem Lexeme.read_front (hnil : t = [] → t' = [])
    (htemplate : x = backtick → ∀ n, templateEnd? (.text []) (x :: behind) (u ++ t) = some n →
      n ≤ u.length → templateEnd? (.text []) (x :: behind) (u ++ t') = some n)
    (hflat : (readFlat behind x (u ++ t)).size ≤ u.length →
      readFlat behind x (u ++ t') = readFlat behind x (u ++ t))
    (hle : (read behind x (u ++ t)).size ≤ u.length) :
    read behind x (u ++ t') = read behind x (u ++ t) := by
  unfold read at hle ⊢
  by_cases hx : x = backtick
  · rw [if_pos hx] at hle
    rw [if_pos hx, if_pos hx]
    cases hn : templateEnd? (.text []) (x :: behind) (u ++ t) with
    | some n =>
      rw [hn] at hle
      rw [htemplate hx n hn hle]
      rfl
    | none =>
      rw [hn] at hle
      dsimp only [Option.getD_none] at hle
      rw [List.length_append] at hle
      have ht : t = [] := List.length_eq_zero_iff.mp (by omega)
      rw [hnil ht, ← hn, ht]
  · rw [if_neg hx] at hle
    rw [if_neg hx, if_neg hx, hflat hle]

end Unbundled.Source
