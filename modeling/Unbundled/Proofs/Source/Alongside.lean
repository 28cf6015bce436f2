import Unbundled.Proofs.Source.Replaced

/-! # Texts that part at a string

Two texts may be the same up to a place where a string starts in both, and differ from there on
(`Alongside`). A reader that ends before that place may still look beyond it: an opening mark that is
not closed in the one text may be closed in the other. So the lexemes before the place are the same if
every string and every regular expression that is opened there is closed (`isClosed`), those in the
expressions of template literals included.

* `lexemePlaces`: where the reader of a lexeme may open a string or a regular expression.
* `Alongside.read_eq`: the lexeme is the same in both texts. -/

namespace Unbundled.Source

variable {behind r r' s t t' u : Text} {q q' x : Char} {m n : Nat}

/-! ### Where strings and regular expressions are opened -/

/-- Whether the string or the regular expression that is opened at a place, if any, is closed. One that
goes on behind an escaped end of line may be closed there. -/
def isClosed (c : Cursor) : Bool :=
  match c.ahead with
  | [] => true
  | x :: t =>
    if isQuote x then (stringEnd? x t).isSome
    else if x = '/' && (commentEnd? t).isNone && regexAllowed c.behind then
      (regexEnd? false t).isSome
    else true

/-- Where a part of a template literal may open a string or a regular expression: at its own place, if
it belongs to an expression. -/
def Nesting.places (c : Cursor) : Nesting → List Cursor
  | text _ => []
  | expression _ _ => [c]

/-- The places in a template literal where its reader may open a string or a regular expression. -/
def expressionPlaces (place : Nesting) (behind : Text) : Text → List Cursor
  | [] => []
  | x :: t =>
    place.places ⟨behind, x :: t⟩ ++
      match place.step behind x t with
      | (none, _) => []
      | (some still, n) => expressionPlaces still ((t.take n).reverse ++ x :: behind) (t.drop n)
termination_by t => t.length
decreasing_by exact Text.length_drop_lt _ _ _

/-- The places where the reader of a lexeme may open a string or a regular expression. -/
def lexemePlaces (behind : Text) (x : Char) (t : Text) : List Cursor :=
  ⟨behind, x :: t⟩ :: if x = backtick then expressionPlaces (.text []) (x :: behind) t else []

theorem isSome_stringEnd?_of_isClosed (h : isClosed ⟨behind, x :: t⟩) (hx : isQuote x) :
    (stringEnd? x t).isSome := by
  simpa only [isClosed, if_pos hx] using h

theorem isSome_regexEnd?_of_isClosed (h : isClosed ⟨behind, '/' :: t⟩) (hc : commentEnd? t = none)
    (hr : regexAllowed behind) : (regexEnd? false t).isSome := by
  have hq : ¬ isQuote '/' := by decide
  simpa [isClosed, if_neg hq, hc, hr] using h

/-! ### Texts up to a string -/

/-- The same text, or texts that are the same for `n` characters or more, up to a quote in each. -/
def Alongside (n : Nat) (t t' : Text) : Prop :=
  t' = t ∨ ∃ u q r q' r', n ≤ u.length ∧ isQuote q ∧ isQuote q' ∧ t = u ++ q :: r ∧ t' = u ++ q' :: r'

/-- The first characters are the same, or both are quotes. -/
theorem Alongside.head (h : Alongside n (x :: t) s) :
    (∃ t', s = x :: t' ∧ Alongside (n - 1) t t') ∨
      (n = 0 ∧ isQuote x ∧ ∃ y t', s = y :: t' ∧ isQuote y) := by
  obtain rfl | ⟨u, q, r, q', r', hn, hq, hq', ht, rfl⟩ := h
  · exact Or.inl ⟨t, rfl, Or.inl rfl⟩
  · cases u with
    | nil =>
      obtain ⟨rfl, rfl⟩ := List.cons.inj ht
      exact Or.inr ⟨Nat.le_zero.mp hn, hq, q', r', rfl, hq'⟩
    | cons y u =>
      obtain ⟨rfl, rfl⟩ := List.cons.inj ht
      refine Or.inl ⟨u ++ q' :: r', rfl, Or.inr ⟨u, q, r, q', r', ?_, hq, hq', rfl, rfl⟩⟩
      rw [List.length_cons] at hn
      omega

theorem Alongside.tail (h : Alongside (n + 1) (x :: t) s) : ∃ t', s = x :: t' ∧ Alongside n t t' := by
  obtain h | ⟨hn, -⟩ := h.head
  · exact h
  · exact absurd hn (Nat.succ_ne_zero n)

/-- A character that is no quote is the same. -/
theorem Alongside.tail_of_not_isQuote (h : Alongside n (x :: t) s) (hx : ¬ isQuote x) :
    ∃ t', s = x :: t' ∧ Alongside (n - 1) t t' := by
  obtain h | ⟨-, hq, -⟩ := h.head
  · exact h
  · exact absurd hq hx

theorem Alongside.eq_nil (h : Alongside n [] s) : s = [] := by
  obtain rfl | ⟨u, q, r, q', r', -, -, -, ht, -⟩ := h
  · rfl
  · exact absurd ht.symm (by simp)

theorem Alongside.take_eq (h : Alongside n t t') : t'.take n = t.take n := by
  obtain rfl | ⟨u, q, r, q', r', hn, -, -, rfl, rfl⟩ := h
  · rfl
  · rw [List.take_append_of_le_length hn, List.take_append_of_le_length hn]

/-- What is looked for and found before the texts part is found at the same place in both. -/
theorem Alongside.findIdx?_eq {p : Char → Bool} (h : Alongside (n + 1) t t')
    (hn : t.findIdx? p = some n) : t'.findIdx? p = some n := by
  obtain rfl | ⟨u, q, r, q', r', hle, -, -, rfl, rfl⟩ := h
  · exact hn
  · rw [List.findIdx?_append] at hn ⊢
    cases hu : u.findIdx? p with
    | some k => rwa [hu] at hn
    | none =>
      rw [hu, Option.none_or] at hn
      obtain ⟨k, -, rfl⟩ := Option.map_eq_some_iff.mp hn
      omega

/-! ### Readers -/

theorem noWord_of_isQuote (hq : isQuote q) (t : Text) : NoWord (q :: t) :=
  noWord_cons (not_isWordChar_of_isQuote hq) t

theorem Alongside.wordEnd_eq (h : Alongside n t t') : wordEnd t' = wordEnd t := by
  obtain rfl | ⟨u, q, r, q', r', -, hq, hq', rfl, rfl⟩ := h
  · rfl
  · rw [wordEnd_noWord (noWord_of_isQuote hq' r'), wordEnd_noWord (noWord_of_isQuote hq r)]

theorem commentEnd?_eq_none_quote (hq' : isQuote q') (h : commentEnd? (u ++ q :: r) = none) :
    commentEnd? (u ++ q' :: r') = none := by
  cases u with
  | nil =>
    refine commentEnd?_eq_none_iff.mpr ⟨?_, ?_⟩ <;> rintro rfl <;> exact absurd hq' (by decide)
  | cons c u => exact commentEnd?_eq_none_iff.mpr (commentEnd?_eq_none_iff.mp h)

theorem triviaEnd_quote (hq : isQuote q) (t : Text) : triviaEnd (q :: t) = 0 := by
  rcases isQuote_iff.mp hq with rfl | rfl <;>
    rw [triviaEnd, if_neg (by decide), if_neg (by decide)]

/-- The blanks and comments at the front are the same. -/
theorem Alongside.triviaEnd_eq (h : Alongside (triviaEnd t) t t') : triviaEnd t' = triviaEnd t := by
  obtain rfl | ⟨u, q, r, q', r', hle, -, hq', rfl, rfl⟩ := h
  · rfl
  · exact triviaEnd_front tailed_true
      (fun _ hn => commentEnd?_front (by simp) (commentEnd?_eq_none_quote hq') hn)
      (fun _ => triviaEnd_quote hq' r') trivial hle

/-! ### Lexemes -/

variable (hq : isQuote q) (hq' : isQuote q')
include hq hq'

/-- Where everything is closed that is opened, a lexeme has nothing to do with what follows it. -/
theorem steady_of_isClosed (h : isClosed ⟨behind, x :: (u ++ q :: r)⟩) :
    Steady (q :: r) (q' :: r') behind x u where
  nil hn := absurd hn (by simp)
  comment _ := commentEnd?_eq_none_quote hq'
  string hx hn := by
    have := isSome_stringEnd?_of_isClosed h hx
    rw [hn] at this
    exact absurd this (by decide)
  regex hx hc hr hn := by
    subst hx
    have := isSome_regexEnd?_of_isClosed h hc hr
    rw [hn] at this
    exact absurd this (by decide)
  word n _ := by rw [wordEnd_noWord (noWord_of_isQuote hq' r'), wordEnd_noWord (noWord_of_isQuote hq r)]

theorem step_of_isClosed {place : Nesting}
    (h : ∀ d ∈ expressionPlaces place behind (x :: (u ++ q :: r)), isClosed d)
    (hle : (place.step behind x (u ++ q :: r)).2 ≤ u.length) :
    place.step behind x (u ++ q' :: r') = place.step behind x (u ++ q :: r) := by
  refine Nesting.step_front (fun _ hb => ?_) (fun depth outer hp hsize => ?_) hle
  · cases u with
    | nil =>
      rintro ⟨⟩
      exact absurd hq' (by decide)
    | cons c u => exact hb
  · have hhere : isClosed ⟨behind, x :: (u ++ q :: r)⟩ := by
      refine h _ ?_
      rw [expressionPlaces, hp]
      exact List.mem_append_left _ (List.mem_singleton_self _)
    exact (steady_of_isClosed hq hq' hhere).readFlat_eq hsize

theorem templateEnd?_of_isClosed {place : Nesting}
    (h : ∀ d ∈ expressionPlaces place behind (u ++ q :: r), isClosed d)
    (hn : templateEnd? place behind (u ++ q :: r) = some n) (hle : n ≤ u.length) :
    templateEnd? place behind (u ++ q' :: r') = some n := by
  refine templateEnd?_front
    (I := fun place b u => ∀ d ∈ expressionPlaces place b (u ++ q :: r), isClosed d)
    (fun place b x u h hle => ⟨step_of_isClosed hq hq' h hle, fun still k hs d hd => h d ?_⟩) h hn hle
  have hk : k ≤ u.length := by rwa [hs] at hle
  rw [List.cons_append, expressionPlaces, hs]
  dsimp only
  rw [List.take_append_of_le_length hk, List.drop_append_of_le_length hk]
  exact List.mem_append_right _ hd

omit hq hq' in
/-- **A lexeme that ends before the texts part** is the same in both. -/
theorem Alongside.read_eq (h : Alongside (Lexeme.read behind x t).size t t')
    (hc : ∀ d ∈ lexemePlaces behind x t, isClosed d) :
    Lexeme.read behind x t' = Lexeme.read behind x t := by
  obtain rfl | ⟨u, q, r, q', r', hle, hq, hq', rfl, rfl⟩ := h
  · rfl
  · refine Lexeme.read_front (by simp) (fun hx n => ?_)
      (steady_of_isClosed hq hq' (hc _ List.mem_cons_self)).readFlat_eq hle
    refine templateEnd?_of_isClosed hq hq' fun d hd => hc d (List.mem_cons_of_mem _ ?_)
    rw [if_pos hx]
    exact hd

end Unbundled.Source
