import Unbundled.Proofs.Component.Modules

/-! # Scripts that are not sealed

Whether a script is sealed shows in one module (`sealed_of_exportsOnce`). In this module the text
after the script (`probe`) holds an id that closes every kind of string and regular expression that
the script may have left open, and then opens a comment that is never closed. So a lexeme that runs on
from the script into the probe swallows the last line (`LostAt`), and if the last line is a default
export, no lexeme does. -/

namespace Unbundled.Component

open Source Import

variable {b s t u v : Text} {c d : Cursor} {x q : Char} {n : Nat}

/-! ### Lines -/

/-- The text is empty or ends with a newline. -/
def Lined (u : Text) : Prop := ∀ x ∈ u.getLast?, x = '\n'

theorem tailed_lined : Tailed Lined := by
  intro x u h y hy
  cases u with
  | nil => exact absurd hy (by simp)
  | cons z u => exact h y (by rwa [List.getLast?_cons_cons])

theorem lined_line (code : Text) : Lined (line code) := by
  intro x hx
  rw [line, List.getLast?_concat] at hx
  exact (Option.some.inj hx).symm

theorem Lined.ne_nil (h : Lined (x :: u)) (hx : x ≠ '\n') : u ≠ [] := by
  rintro rfl
  exact hx (h x rfl)

theorem Lined.mem (h : Lined u) (hu : u ≠ []) : '\n' ∈ u := by
  have hl := List.getLast?_eq_some_getLast hu
  have := h _ hl
  exact this ▸ List.getLast_mem hu

theorem wordEnd_lt_of_mem (h : '\n' ∈ u) : wordEnd u < u.length := by
  refine Nat.lt_of_le_of_ne (wordEnd_le u) fun hl => ?_
  have hu : u.takeWhile isWordChar = u := (List.takeWhile_prefix isWordChar).eq_of_length hl
  exact absurd (List.mem_takeWhile_imp (hu.symm ▸ h)) (by decide)

/-- A backslash has a character to escape. -/
theorem Lined.ne_backslash (h : Lined (x :: u)) (hne : ∀ d v, x = '\\' → u = d :: v → False) :
    x ≠ '\\' := by
  rintro rfl
  obtain ⟨d, v, rfl⟩ := List.exists_cons_of_ne_nil (h.ne_nil (by decide))
  exact hne d v rfl rfl

theorem Lined.tail_of_escape (h : Lined ('\\' :: x :: u)) : Lined u :=
  tailed_lined _ _ (tailed_lined _ _ h)

/-- A string is closed or given up within the lines, or a backslash takes the last newline along and
the string goes on. -/
theorem stringEnd?_lined (q : Char) (h : Lined u) :
    (∀ t, stringEnd? q (u ++ t) = stringEnd? q u) ∨
      ∀ t, stringEnd? q (u ++ t) = (stringEnd? q t).map (· + u.length) := by
  fun_induction stringEnd? q u with
  | case1 c u ih =>
    rcases ih h.tail_of_escape with ih | ih
    · exact Or.inl fun t => by rw [List.cons_append, List.cons_append, stringEnd?_escape, ih]
    · refine Or.inr fun t => ?_
      rw [List.cons_append, List.cons_append, stringEnd?_escape, ih, Option.map_map]
      rfl
  | case2 u _ =>
    exact Or.inl fun t => by rw [List.cons_append, stringEnd?_cons (by decide), if_pos rfl]
  | case3 u hne hn =>
    exact Or.inl fun t => by
      rw [List.cons_append, stringEnd?_cons (h.ne_backslash hne), if_neg hn, if_pos rfl]
  | case4 c u hne hn hq ih =>
    have hb := h.ne_backslash hne
    rcases ih (tailed_lined _ _ h) with ih | ih
    · exact Or.inl fun t => by
        rw [List.cons_append, stringEnd?_cons hb, if_neg hn, if_neg hq, ih]
    · refine Or.inr fun t => ?_
      rw [List.cons_append, stringEnd?_cons hb, if_neg hn, if_neg hq, ih, Option.map_map]
      rfl
  | case5 => exact Or.inr fun t => by simp

/-- A regular expression is closed or given up before the end of the lines, or a backslash takes the
last newline along and the regular expression goes on. -/
def RegexLined (inBrackets : Bool) (u : Text) : Prop :=
  ((∀ t, regexEnd? inBrackets (u ++ t) = regexEnd? inBrackets u) ∧
      ∀ n ∈ regexEnd? inBrackets u, n < u.length) ∨
    ∃ k, ∀ t, regexEnd? inBrackets (u ++ t) = (regexEnd? k t).map (· + u.length)

/-- Characters that the reader passes. -/
theorem RegexLined.step {j k : Bool} (h : RegexLined j u)
    (hstep : ∀ t, regexEnd? k (v ++ t) = (regexEnd? j t).map (· + v.length)) :
    RegexLined k (v ++ u) := by
  have hv := hstep u
  rcases h with ⟨h, hlt⟩ | ⟨i, h⟩
  · refine Or.inl ⟨fun t => by rw [List.append_assoc, hstep, h, hv], fun n hn => ?_⟩
    rw [hv] at hn
    obtain ⟨m, hm, rfl⟩ := Option.map_eq_some_iff.mp hn
    rw [List.length_append, Nat.add_comm]
    exact Nat.add_lt_add_left (hlt m hm) _
  · refine Or.inr ⟨i, fun t => ?_⟩
    rw [List.append_assoc, hstep, h, Option.map_map, List.length_append, Nat.add_comm v.length]
    exact congrArg (Option.map · _) (funext fun n => Nat.add_assoc n _ _)

theorem regexLined (inBrackets : Bool) (h : Lined u) : RegexLined inBrackets u := by
  fun_induction regexEnd? inBrackets u with
  | case1 inBrackets c u ih =>
    exact (ih h.tail_of_escape).step (v := ['\\', c]) fun t => regexEnd?_escape inBrackets c t
  | case2 inBrackets u _ =>
    refine Or.inl ⟨fun t => ?_, fun n hn => ?_⟩
    · rw [List.cons_append, regexEnd?_cons (by decide), regexEnd?_cons (by decide), if_pos rfl,
        if_pos rfl]
    · rw [regexEnd?_cons (by decide), if_pos rfl] at hn
      exact absurd hn (by simp)
  | case3 inBrackets u _ _ ih =>
    refine (ih (tailed_lined _ _ h)).step (v := ['[']) fun t => ?_
    rw [List.singleton_append, regexEnd?_cons (by decide), if_neg (by decide), if_pos rfl]
    rfl
  | case4 inBrackets u _ _ _ ih =>
    refine (ih (tailed_lined _ _ h)).step (v := [']']) fun t => ?_
    rw [List.singleton_append, regexEnd?_cons (by decide), if_neg (by decide), if_neg (by decide),
      if_pos rfl]
    rfl
  | case5 inBrackets c u hne hn h1 h2 hs =>
    have hb := h.ne_backslash hne
    have hclosed : ∀ t, regexEnd? inBrackets (c :: t) = some 1 := fun t => by
      rw [regexEnd?_cons hb, if_neg hn, if_neg h1, if_neg h2, if_pos hs]
    refine Or.inl ⟨fun t => by rw [List.cons_append, hclosed, hclosed], fun n hm => ?_⟩
    rw [hclosed] at hm
    obtain rfl := Option.some.inj hm
    exact Nat.succ_lt_succ (List.length_pos_iff.mpr (h.ne_nil hn))
  | case6 inBrackets c u hne hn h1 h2 hs ih =>
    refine (ih (tailed_lined _ _ h)).step (v := [c]) fun t => ?_
    rw [List.singleton_append, regexEnd?_cons (h.ne_backslash hne), if_neg hn, if_neg h1, if_neg h2,
      if_neg hs]
    rfl
  | case7 inBrackets => exact Or.inr ⟨inBrackets, fun t => by simp⟩

/-! ### The probe -/

/-- A component with only a script. -/
def plain (script : Option Block) : Descriptor := ⟨none, script, []⟩

/-- An id that closes the strings and the regular expressions that are open, and opens a comment. -/
def probeId : Text := "\x27]/ /*".toList

/-- The text after the script in the module with this id. -/
def probe : Text :=
  propertyLine "__hmrId".toList (Literal.quote probeId) ++
    propertyLine "__file".toList (Literal.quote []) ++ exportLine

/-- What is left of the probe after the comment has been opened. -/
def probeRest : Text :=
  "\";\n".toList ++ propertyLine "__file".toList (Literal.quote []) ++ exportLine

/-- **Whatever follows may take the place of the probe**, since it closes what can be closed. -/
theorem continues_probe (t : Text) : Continues Lined probe t where
  nil h := absurd h (by decide)
  string {q u} hu hq h := by
    rcases stringEnd?_lined q hu with hl | hl
    · rw [hl, ← hl probe, h]
    · exfalso
      rw [hl, Option.map_eq_none_iff] at h
      rcases isQuote_iff.mp hq with rfl | rfl
      · exact absurd h (by decide +kernel)
      · exact absurd h (by decide +kernel)
  regex {k u} hu h := by
    rcases regexLined k hu with ⟨hl, -⟩ | ⟨j, hl⟩
    · rw [hl, ← hl probe, h]
    · exfalso
      rw [hl, Option.map_eq_none_iff] at h
      cases j
      · exact absurd h (by decide +kernel)
      · exact absurd h (by decide +kernel)
  word {u} hu h := by
    by_cases hnil : u = []
    · subst hnil
      exact absurd h (by decide)
    · have hlt := wordEnd_lt_of_mem (hu.mem hnil)
      rw [wordEnd_append_of_lt hlt, wordEnd_append_of_lt hlt]
  comment {u} hu h := by
    obtain ⟨c, v, rfl⟩ := List.exists_cons_of_ne_nil (hu.ne_nil (by decide))
    exact commentEnd?_eq_none_iff.mpr (commentEnd?_eq_none_iff.mp h)
  brace {u} hu h := by
    obtain ⟨c, v, rfl⟩ := List.exists_cons_of_ne_nil (hu.ne_nil (by decide))
    exact h

/-! ### The lost last line -/

/-- The lexemes from a place on do not lead to the last line of a module. -/
def LostAt (c : Cursor) : Prop := ∀ d, Walk c [] d → d.ahead ≠ exportLine

theorem lostAt_step (hc : c.ahead = x :: t) (hne : x :: t ≠ exportLine)
    (h : LostAt (c.advance ((Lexeme.read c.behind x t).size + 1))) : LostAt c := by
  intro d hd
  rcases (walk_cons_iff hc).mp hd with rfl | hd
  · rwa [hc]
  · exact h d hd

theorem lostAt_nil (h : c.ahead = []) : LostAt c := by
  intro d hd
  rcases walk_iff.mp hd with rfl | ⟨x, t, hc, -⟩
  · rw [h]
    exact (by decide : [] ≠ exportLine)
  · exact absurd (h.symm.trans hc) (by simp)

theorem lostAt_plain (hc : c.ahead = x :: t) (hx : isPlain x) (h : LostAt (c.advance 1)) :
    LostAt c := by
  refine lostAt_step hc ?_ (by rwa [Lexeme.read_plain hx])
  rintro heq
  obtain rfl : x = 'e' := by
    rw [show exportLine = 'e' :: "xport default __sfc_main;\n".toList by decide] at heq
    exact (List.cons.inj heq).1
  exact absurd hx (by decide)

theorem lostAt_comment (hc : c.ahead = '/' :: '*' :: probeRest) : LostAt c := by
  have hn : commentEnd? ('*' :: probeRest) = some ('*' :: probeRest).length := by decide +kernel
  refine lostAt_step hc (by decide) (lostAt_nil ?_)
  rw [Lexeme.read_comment hn, Cursor.ahead_advance, hc]
  exact List.drop_eq_nil_of_le (Nat.le_refl _)

theorem lostAt_space (hc : c.ahead = ' ' :: '/' :: '*' :: probeRest) : LostAt c :=
  lostAt_plain hc (by decide) (lostAt_comment (by rw [Cursor.ahead_advance, hc]; rfl))

/-- Behind a bracket a slash divides. -/
theorem read_slash (b t : Text) : Lexeme.read (']' :: b) '/' (' ' :: t) = Lexeme.single := by
  have hs : regexAllowed (']' :: b) = false := rfl
  rw [Lexeme.read, if_neg (by decide), Lexeme.readFlat, if_pos rfl, commentEnd?]
  · dsimp only
    rw [hs, if_neg Bool.false_ne_true]
  · simp
  · simp

theorem lostAt_bracket (hc : c.ahead = ']' :: '/' :: ' ' :: '/' :: '*' :: probeRest) : LostAt c := by
  have hd : (c.advance 1).ahead = '/' :: ' ' :: '/' :: '*' :: probeRest := by
    rw [Cursor.ahead_advance, hc]
    rfl
  have hb : (c.advance 1).behind = ']' :: c.behind := by
    rw [Cursor.behind_advance, hc]
    rfl
  refine lostAt_plain hc (by decide) (lostAt_step hd (by decide) (lostAt_space ?_))
  rw [hb, read_slash, Cursor.ahead_advance, hd]
  rfl

theorem lostAt_quote (hc : c.ahead = '\x27' :: ']' :: '/' :: ' ' :: '/' :: '*' :: probeRest) :
    LostAt c := by
  have hn : stringEnd? '\x27' (']' :: '/' :: ' ' :: '/' :: '*' :: probeRest) = none := by
    decide +kernel
  refine lostAt_step hc (by decide) (lostAt_bracket ?_)
  rw [Lexeme.read_open_quote (by decide) hn, Cursor.ahead_advance, hc]
  rfl

/-! ### Lexemes that run on -/

theorem append_of_templateEnd? {place : Nesting} (h : templateEnd? place b t = some n) :
    ∃ v w, t = v ++ backtick :: w ∧ n = v.length + 1 := by
  fun_induction templateEnd? place b t generalizing n with
  | case1 => exact absurd h (by simp)
  | case2 place b c t k hs =>
    obtain ⟨rfl, rfl⟩ := Nesting.step_eq_none hs
    exact ⟨[], t, rfl, (Option.some.inj h).symm⟩
  | case3 place b c t still k hs ih =>
    obtain ⟨m, hm, rfl⟩ := Option.map_eq_some_iff.mp h
    obtain ⟨v, w, hv, rfl⟩ := ih hm
    have hk : k ≤ t.length := by
      by_contra hlt
      rw [List.drop_eq_nil_of_le (by omega)] at hv
      exact absurd hv (by simp)
    refine ⟨c :: t.take k ++ v, w, ?_, ?_⟩
    · rw [List.append_assoc, ← hv, List.cons_append, List.take_append_drop]
    · rw [List.length_append, List.length_cons, List.length_take, Nat.min_eq_left hk]
      omega

theorem append_of_blockEnd? (h : blockEnd? t = some n) :
    ∃ v w, t = v ++ '*' :: '/' :: w ∧ n = v.length + 2 := by
  fun_induction blockEnd? t generalizing n with
  | case1 t => exact ⟨[], t, rfl, (Option.some.inj h).symm⟩
  | case2 c t hne ih =>
    obtain ⟨m, hm, rfl⟩ := Option.map_eq_some_iff.mp h
    obtain ⟨v, w, rfl, rfl⟩ := ih hm
    exact ⟨c :: v, w, rfl, rfl⟩
  | case3 => exact absurd h (by simp)

theorem ahead_advance_past (b : Text) (x : Char) (u t : Text) (m : Nat) :
    ((⟨b, x :: u ++ t⟩ : Cursor).advance (m + u.length + 1)).ahead = t.drop m := by
  rw [Cursor.ahead_advance, List.cons_append, List.drop_succ_cons, Nat.add_comm,
    List.drop_length_add_append]

theorem lostAt_end (b : Text) (x : Char) (t : Text) :
    LostAt ((⟨b, x :: t⟩ : Cursor).advance (t.length + 1)) :=
  lostAt_nil (List.drop_eq_nil_of_le (Nat.le_refl _))

/-- A string that runs on is closed in the id. -/
theorem lostAt_overrun_string (hu : Lined u) (hq : isQuote x)
    (hlt : u.length < (Lexeme.read b x (u ++ probe)).size) :
    LostAt ((⟨b, x :: u ++ probe⟩ : Cursor).advance ((Lexeme.read b x (u ++ probe)).size + 1)) := by
  rcases stringEnd?_lined x hu with hl | hl
  · exfalso
    cases hn : stringEnd? x u with
    | none =>
      rw [Lexeme.read_open_quote hq ((hl probe).trans hn)] at hlt
      exact Nat.not_lt_zero _ hlt
    | some n =>
      rw [Lexeme.read_string hq ((hl probe).trans hn)] at hlt
      exact absurd (le_of_front (stringEnd?_front hq) hn) (Nat.not_le.mpr hlt)
  · rcases isQuote_iff.mp hq with rfl | rfl
    · have hm : stringEnd? '\x27' probe = some 23 := by decide +kernel
      rw [Lexeme.read_string hq ((hl probe).trans (by rw [hm]; rfl))]
      refine lostAt_bracket ?_
      rw [ahead_advance_past]
      decide +kernel
    · have hm : stringEnd? '"' probe = some 22 := by decide +kernel
      rw [Lexeme.read_string hq ((hl probe).trans (by rw [hm]; rfl))]
      refine lostAt_quote ?_
      rw [ahead_advance_past]
      decide +kernel

/-- A template literal that runs on is never closed. -/
theorem lostAt_overrun_template
    (hlt : u.length < (Lexeme.read b backtick (u ++ probe)).size) :
    LostAt ((⟨b, backtick :: u ++ probe⟩ : Cursor).advance
      ((Lexeme.read b backtick (u ++ probe)).size + 1)) := by
  rw [Lexeme.read, if_pos rfl] at hlt ⊢
  cases hn : templateEnd? (.text []) (backtick :: b) (u ++ probe) with
  | none => exact lostAt_end b backtick (u ++ probe)
  | some n =>
    exfalso
    rw [hn] at hlt
    dsimp only [Option.getD_some] at hlt
    obtain ⟨v, w, hv, rfl⟩ := append_of_templateEnd? hn
    have hmem : backtick ∈ probe := by
      rcases List.append_eq_append_iff.mp hv with ⟨z, -, hz⟩ | ⟨z, rfl, hz⟩
      · rw [hz]
        exact List.mem_append_right z List.mem_cons_self
      · rw [List.length_append] at hlt
        have hz' : z = [] := List.length_eq_zero_iff.mp (by omega)
        rw [hz', List.nil_append] at hz
        exact hz ▸ List.mem_cons_self
    exact absurd hmem (by decide +kernel)

theorem exists_lineEnd?_of_mem (h : '\n' ∈ u) : ∃ n, lineEnd? u = some n := by
  fun_induction lineEnd? u with
  | case1 => exact absurd h List.not_mem_nil
  | case2 u => exact ⟨1, rfl⟩
  | case3 c u hc ih =>
    obtain ⟨n, hn⟩ := ih ((List.mem_cons.mp h).resolve_left (Ne.symm hc))
    exact ⟨n + 1, by rw [hn]; rfl⟩

/-- A block comment that is open at the end of the lines is not closed in the probe. -/
theorem blockEnd?_probe (hu : Lined u) (hn : blockEnd? (u ++ probe) = some n) : n ≤ u.length := by
  by_contra hlt
  obtain ⟨v, w, hv, rfl⟩ := append_of_blockEnd? hn
  rcases List.append_eq_append_iff.mp hv with ⟨z, -, hz⟩ | ⟨z, rfl, hz⟩
  · have hmark : ['*', '/'] <:+: probe := ⟨z, w, by rw [hz]; simp⟩
    exact absurd hmark (by decide +kernel)
  · rw [List.length_append] at hlt
    rcases z with _ | ⟨y, _ | ⟨y', z⟩⟩
    · have hhead : some '*' = some '_' := congrArg List.head? hz
      exact absurd hhead (by decide)
    · -- the lines end with a newline and not with a star
      obtain ⟨rfl, -⟩ := List.cons.inj hz
      exact absurd (hu '*' (by rw [List.getLast?_concat]; rfl)) (by decide)
    · simp only [List.length_cons] at hlt
      omega

/-- A comment that runs on is a block comment, and is never closed. -/
theorem lostAt_overrun_comment (hu : Lined ('/' :: u))
    (hn : commentEnd? (u ++ probe) = some n) (hlt : u.length < n) :
    LostAt ((⟨b, '/' :: u ++ probe⟩ : Cursor).advance (n + 1)) := by
  obtain ⟨c, w, rfl⟩ := List.exists_cons_of_ne_nil (hu.ne_nil (by decide))
  have hw := tailed_lined _ _ hu
  rw [List.cons_append] at hn
  rw [List.length_cons] at hlt
  unfold commentEnd? at hn
  split at hn
  · rename_i t ht
    exfalso
    obtain ⟨rfl, rfl⟩ := List.cons.inj ht
    obtain ⟨m, hm⟩ := exists_lineEnd?_of_mem ((tailed_lined _ _ hw).mem (hw.ne_nil (by decide)))
    obtain ⟨h1, h2⟩ := (eq_some_iff_of_front (lineEnd?_front w probe)).mp hm
    rw [h1] at hn
    obtain rfl := Option.some.inj hn
    dsimp only [Option.getD_some] at hlt
    omega
  · rename_i t ht
    obtain ⟨rfl, rfl⟩ := List.cons.inj ht
    obtain rfl := Option.some.inj hn
    cases hm : blockEnd? (w ++ probe) with
    | none =>
      have hend := lostAt_end b '/' ('*' :: (w ++ probe))
      rw [List.length_cons, Nat.add_comm _ 1] at hend
      exact hend
    | some m =>
      exfalso
      have := blockEnd?_probe (tailed_lined _ _ hw) hm
      rw [hm] at hlt
      dsimp only [Option.getD_some] at hlt
      omega
  · exact absurd hn (by simp)

/-- A regular expression that runs on is closed in the id. -/
theorem lostAt_overrun_regex (hu : Lined u) (hc : commentEnd? (u ++ probe) = none)
    (hlt : u.length < (Lexeme.read b '/' (u ++ probe)).size) :
    LostAt ((⟨b, '/' :: u ++ probe⟩ : Cursor).advance
      ((Lexeme.read b '/' (u ++ probe)).size + 1)) := by
  rw [Lexeme.read, if_neg (by decide), Lexeme.readFlat, if_pos rfl, hc] at hlt ⊢
  dsimp only at hlt ⊢
  by_cases hr : regexAllowed b
  · rw [if_pos hr] at hlt ⊢
    rcases regexLined false hu with ⟨hl, hless⟩ | ⟨k, hl⟩
    · exfalso
      rw [hl] at hlt
      cases hn : regexEnd? false u with
      | none =>
        rw [hn] at hlt
        exact Nat.not_lt_zero _ hlt
      | some n =>
        have hlen := hless n hn
        have hne : u.drop n ≠ [] := fun h => by
          have := List.drop_eq_nil_iff.mp h
          omega
        have hend := wordEnd_lt_of_mem ((tailed_lined.drop hu n).mem hne)
        rw [hn] at hlt
        dsimp only at hlt
        rw [List.drop_append_of_le_length hlen.le, wordEnd_append_of_lt hend] at hlt
        rw [List.length_drop] at hend
        omega
    · have hm : regexEnd? k probe = some 25 := by cases k <;> decide +kernel
      have hdrop : (u ++ probe).drop (25 + u.length) = ' ' :: '/' :: '*' :: probeRest := by
        rw [Nat.add_comm, List.drop_length_add_append]
        decide +kernel
      have hflags : wordEnd (' ' :: '/' :: '*' :: probeRest) = 0 := rfl
      rw [hl, hm, Option.map_some]
      dsimp only
      rw [hdrop, hflags]
      refine lostAt_space ?_
      rw [Nat.add_zero, ahead_advance_past]
      decide +kernel
  · rw [if_neg hr] at hlt
    exact absurd hlt (Nat.not_lt_zero _)

/-- **A lexeme that runs on into the probe** loses the last line. -/
theorem lostAt_overrun (hu : Lined (x :: u))
    (hlt : u.length < (Lexeme.read b x (u ++ probe)).size) :
    LostAt ((⟨b, x :: u ++ probe⟩ : Cursor).advance ((Lexeme.read b x (u ++ probe)).size + 1)) := by
  by_cases hq : isQuote x
  · exact lostAt_overrun_string (tailed_lined x u hu) hq hlt
  by_cases hb : x = backtick
  · subst hb
    exact lostAt_overrun_template hlt
  by_cases hs : x = '/'
  · subst hs
    cases hn : commentEnd? (u ++ probe) with
    | some n =>
      rw [Lexeme.read_comment hn] at hlt ⊢
      exact lostAt_overrun_comment hu hn hlt
    | none => exact lostAt_overrun_regex (tailed_lined _ _ hu) hn hlt
  exfalso
  by_cases hw : isWordStart x
  · have hne := hu.ne_nil (by rintro rfl; exact absurd hw (by decide))
    have hend := wordEnd_lt_of_mem ((tailed_lined x u hu).mem hne)
    rw [Lexeme.read_word hw] at hlt
    dsimp only at hlt
    rw [wordEnd_append_of_lt hend] at hlt
    omega
  · rw [Lexeme.read_plain (by simp [isPlain, hq, hb, hs, hw])] at hlt
    exact Nat.not_lt_zero _ hlt

/-! ### From the last line back to the script -/

/-- The way to the last line leads past the end of the lines before the probe. -/
theorem walk_probe (hu : Lined u) (h : Walk ⟨b, u ++ probe⟩ [] d) (hd : d.ahead = exportLine) :
    Walk ⟨b, u ++ probe⟩ [] ⟨u.reverse ++ b, probe⟩ := by
  generalize hl : u.length = l
  induction l using Nat.strongRecOn generalizing b u with
  | ind l ih =>
    cases u with
    | nil => exact Walk.stay
    | cons x u =>
      have hx : (⟨b, x :: u ++ probe⟩ : Cursor).ahead = x :: (u ++ probe) := rfl
      have hwalk := (walk_cons_iff hx).mp h
      rcases hwalk with rfl | hw
      · have hlen := congrArg List.length hd
        rw [hx, List.length_cons, List.length_append] at hlen
        have : exportLine.length < probe.length := by decide
        omega
      dsimp only at hw
      by_cases hle : (Lexeme.read b x (u ++ probe)).size ≤ u.length
      · rw [Cursor.advance_front b x probe hle] at hw
        rw [List.length_cons] at hl
        have hnext := ih _ (by rw [List.length_drop]; omega)
          (tailed_lined.drop (tailed_lined x u hu) _) hw rfl
        refine (walk_cons_iff hx).mpr (Or.inr ?_)
        dsimp only
        rw [Cursor.advance_front b x probe hle]
        rwa [reverse_drop_append] at hnext
      · exact absurd hd (lostAt_overrun hu (Nat.not_le.mp hle) d hw)

/-- The place where a text goes on is met whatever follows, if it is met when the probe follows. -/
theorem closed_of_walk (hs : Lined s) (h : Walk (Cursor.start (s ++ probe)) [] ⟨s.reverse, probe⟩) :
    Closed s := by
  intro t
  have hw : Walk (Cursor.start (s ++ t)) [] ⟨s.reverse, t⟩ :=
    Walk.continues (v := []) tailed_lined (continues_probe t) hs h
  exact mem_boundaries_iff.mpr ⟨_, hw, Text.bytes_reverse s⟩

/-- Whether a text is closed shows with the probe. -/
theorem closed_iff_probe (hs : Lined s) : Closed s ↔ Text.bytes s ∈ boundaries (s ++ probe) := by
  refine ⟨fun h => h probe, fun h => closed_of_walk hs ?_⟩
  exact walk_of_bytes_mem h

instance (code : Text) : Decidable (Closed (line code)) :=
  decidable_of_iff _ (closed_iff_probe (lined_line code)).symm

theorem toModule_plain {script : Option Block} {code : Text} (hc : compileScript script = .ok code) :
    (plain script).toModule [] probeId = .ok (line code ++ probe) := by
  unfold Descriptor.toModule plain
  dsimp only
  rw [hc]
  refine congrArg Except.ok ?_
  simp [probe]

/-- **A script is sealed** if the last line of the module with the probe is its only default export. -/
theorem sealed_of_exportsOnce {code : Text} (h : ExportsOnce (line code ++ probe)) : Sealed code := by
  obtain ⟨body, hbody, honly⟩ := h
  have hlines := lined_line code
  obtain ⟨d, hw, hd, hoffset⟩ := exportsAt_iff_walk.mp ((honly _).mpr rfl)
  have hahead : d.ahead = exportLine := by
    have hwhole := hw.onward.whole_eq
    rw [Cursor.whole_start, hbody, Cursor.whole] at hwhole
    exact (Text.eq_of_append_eq hwhole (by rw [Text.bytes_reverse]; exact hoffset)).2
  have hend := walk_probe (b := []) hlines hw hahead
  refine ⟨closed_of_walk hlines (by rwa [List.append_nil] at hend), fun n hn => ?_⟩
  -- a default export in the script is one of the module, before the last line
  obtain ⟨e, he, hdefault, rfl⟩ := exportsAt_iff_walk.mp hn
  have hlast : '\n' ∈ e.ahead.getLast? := by
    obtain ⟨k, hk⟩ := he.onward
    obtain ⟨t, ht⟩ := exists_cons_of_atDefault hdefault
    have hlined : Lined e.ahead := by
      rw [hk]
      exact tailed_lined.drop hlines k
    have hne : e.ahead ≠ [] := by
      rw [ht]
      exact List.cons_ne_nil 'e' t
    have hsome := List.getLast?_eq_some_getLast hne
    rwa [hlined _ hsome] at hsome
  have he' := walk_extend hend he
  have hexport := (honly _).mp (exportsAt_iff_walk.mpr ⟨_, he', hdefault.append hlast probe, rfl⟩)
  have heq : e.extend probe = d :=
    Cursor.eq_of_offset_eq (he'.onward.whole_eq.trans hw.onward.whole_eq.symm)
      (hexport.trans hoffset.symm)
  have hlen := congrArg (fun c => c.ahead.length) heq
  dsimp only [Cursor.extend] at hlen
  rw [hahead, List.length_append] at hlen
  have : exportLine.length < probe.length := by decide
  omega

end Unbundled.Component
