import Unbundled.Proofs.Import.Spans
import Unbundled.Proofs.Source.Boundaries

/-! # Imports inside other lexemes

A source is a sequence of lexemes, and an import whose literal lies inside a comment, a template
literal, a regular expression or another string is none. The scan reports such an import only after
a leap over a brace list that has landed inside a lexeme, since every other move is a whole lexeme
(`Walk`).

* `not_hides_place`, `walk_of_not_hides_place`: what starts at a boundary is not hidden, and only that.
* `not_hides_of_walk`, `walk_of_not_hides`: the same for the literal that an import is read from.
* `unhidden_iff`: no import is hidden exactly if, whenever a leap lands off the boundaries, the scan is
  back at a boundary when it reports the next import. -/

namespace Unbundled.Import

open Source

/-! ### Boundaries and walks -/

variable {c d p : Cursor} {s : Span}

/-- A walk without leaps leaves the spans behind that it passes. -/
theorem mem_spansAt_of_walk (h : Walk c [] d) (hs : s ∈ spansAt c) :
    s.stop ≤ d.offset ∨ s ∈ spansAt d := by
  generalize hl : ([] : List Cursor) = ls at h
  induction h with
  | stay => exact Or.inr hs
  | @lexeme ls d x t _ hd ih =>
    rcases ih hl with h | h
    · exact Or.inl (Nat.le_trans h (Cursor.onward_advance _ d).offset_le)
    · rw [spansAt_cons hd] at h
      rcases List.mem_cons.mp h with rfl | h
      · exact Or.inl (Nat.le_refl _)
      · exact Or.inr h
  | leap n _ _ => exact absurd hl.symm (by simp)

theorem spansAt_subset_of_walk (h : Walk c [] d) : spansAt d ⊆ spansAt c := by
  generalize hl : ([] : List Cursor) = ls at h
  induction h with
  | stay => exact List.Subset.refl _
  | @lexeme ls d x t _ hd ih =>
    refine List.Subset.trans ?_ (ih hl)
    rw [spansAt_cons hd]
    exact List.subset_cons_self _ _
  | leap n _ _ => exact absurd hl.symm (by simp)

/-- Every span belongs to a place that the lexemes lead to. -/
theorem walk_of_mem_spansAt (h : s ∈ spansAt c) : ∃ d, Walk c [] d ∧ d.offset = s.start := by
  generalize hn : c.ahead.length = n
  induction n using Nat.strongRecOn generalizing c with
  | ind n ih =>
    cases hc : c.ahead with
    | nil =>
      rw [spansAt_nil hc] at h
      exact absurd h List.not_mem_nil
    | cons x t =>
      rw [spansAt_cons hc] at h
      rcases List.mem_cons.mp h with rfl | h
      · exact ⟨c, Walk.stay, rfl⟩
      · have hlt := Cursor.length_advance_lt hc (Lexeme.read c.behind x t).size
        obtain ⟨d, hw, hd⟩ := ih _ (hn ▸ hlt) h rfl
        exact ⟨d, (Walk.stay.lexeme hc).trans hw, hd⟩

/-- Every place that the lexemes lead to has its span. -/
theorem exists_span {x : Char} {t : Text} (h : Walk c [] d) (hd : d.ahead = x :: t) :
    ∃ s ∈ spansAt c, s.kind = (Lexeme.read d.behind x t).kind ∧ s.start = d.offset ∧
      s.stop = (d.advance ((Lexeme.read d.behind x t).size + 1)).offset := by
  have hmem := spansAt_subset_of_walk h (spansAt_cons hd ▸ List.mem_cons_self)
  exact ⟨_, hmem, rfl, rfl, rfl⟩

/-- The boundaries are the offsets of the places that the lexemes lead to. -/
theorem mem_boundaries_iff {source : Text} {n : Nat} :
    n ∈ boundaries source ↔ ∃ d, Walk (Cursor.start source) [] d ∧ d.offset = n := by
  rw [boundaries, List.mem_append, List.mem_map, List.mem_singleton, ← spansAt_start]
  constructor
  · rintro (⟨s, hs, rfl⟩ | rfl)
    · exact walk_of_mem_spansAt hs
    · refine ⟨(Cursor.start source).finish, Walk.stay.finish, ?_⟩
      rw [Cursor.offset_finish, Cursor.whole_start]
  · rintro ⟨d, hw, rfl⟩
    cases hd : d.ahead with
    | nil =>
      right
      have h := Cursor.bytes_whole d
      rw [hw.onward.whole_eq, Cursor.whole_start, hd, Text.bytes_nil] at h
      exact h.symm
    | cons x t =>
      left
      obtain ⟨s, hs, -, hstart, -⟩ := exists_span hw hd
      exact ⟨s, hs, hstart⟩

/-- A place ahead is met by the lexemes, or it lies strictly inside one of them. -/
theorem walk_or_inside (h : c.Onward p) :
    Walk c [] p ∨ ∃ d x t k, Walk c [] d ∧ d.ahead = x :: t ∧ k < (Lexeme.read d.behind x t).size ∧
      p = d.advance (k + 1) := by
  obtain ⟨m, rfl⟩ := h
  induction m using Nat.strongRecOn generalizing c with
  | ind m ih =>
    cases m with
    | zero =>
      rw [Cursor.advance_zero]
      exact Or.inl Walk.stay
    | succ k =>
      cases hc : c.ahead with
      | nil =>
        rw [Cursor.advance_of_nil hc]
        exact Or.inl Walk.stay
      | cons x t =>
        by_cases hk : k < (Lexeme.read c.behind x t).size
        · exact Or.inr ⟨c, x, t, k, Walk.stay, hc, hk, rfl⟩
        · have hstep := Walk.stay.lexeme hc
          have hsplit : c.advance (k + 1) = (c.advance ((Lexeme.read c.behind x t).size + 1)).advance
              (k - (Lexeme.read c.behind x t).size) := by
            rw [Cursor.advance_advance]
            congr 1
            omega
          rw [hsplit]
          rcases @ih (k - (Lexeme.read c.behind x t).size) (by omega)
            (c.advance ((Lexeme.read c.behind x t).size + 1)) with h | ⟨d, y, u, j, hw, hd, hj, he⟩
          · exact Or.inl (hstep.trans h)
          · exact Or.inr ⟨d, y, u, j, hstep.trans hw, hd, hj, he⟩

theorem walk_of_mem_boundaries {source : Text} (ho : (Cursor.start source).Onward p)
    (h : p.offset ∈ boundaries source) : Walk (Cursor.start source) [] p := by
  obtain ⟨d, hw, hd⟩ := mem_boundaries_iff.mp h
  have : d = p := Cursor.eq_of_offset_eq (hw.onward.whole_eq.trans ho.whole_eq.symm) hd
  exact this ▸ hw

/-! ### Hidden places -/

variable {source : Text} {x : Char} {t : Text}

/-- What starts at a boundary is not hidden, unless it is itself what hides. -/
theorem not_hides_place (hw : Walk (Cursor.start source) [] p) (hp : p.ahead = x :: t)
    (hk : (Lexeme.read p.behind x t).kind ∈ [Source.Kind.string, .word, .other]) (s : Span)
    (hs : s ∈ spans source) : ¬ s.hides p.offset := by
  intro hh
  have hb := bounds_of_hides hh
  rcases mem_spansAt_of_walk hw hs with h | h
  · omega
  · rw [spansAt_cons hp] at h
    rcases List.mem_cons.mp h with rfl | h
    · rw [Span.hides] at hh
      simp only [List.mem_cons, List.not_mem_nil, or_false] at hk
      rcases hk with hk | hk | hk <;> simp [hk] at hh
    · have h1 := offset_le_of_mem_spansAt h
      have h2 := @Cursor.offset_lt_advance p ((Lexeme.read p.behind x t).size + 1) (by simp [hp])
        (Nat.succ_pos _)
      omega

/-- A place that is not hidden and does not lie inside a word is a boundary. -/
theorem walk_of_not_hides_place (ho : (Cursor.start source).Onward p) (hp : p.ahead ≠ [])
    (hword : NoWord p.behind ∨ NoWord p.ahead) (h : ∀ s ∈ spans source, ¬ s.hides p.offset) :
    Walk (Cursor.start source) [] p := by
  rcases walk_or_inside ho with hw | ⟨d, x, t, k, hw, hd, hk, rfl⟩
  · exact hw
  · exfalso
    obtain ⟨s, hs, hkind, hs1, hs2⟩ := exists_span hw hd
    have hne : d.ahead ≠ [] := by rw [hd]; exact List.cons_ne_nil x t
    have h1 := Cursor.offset_lt_advance hne (Nat.succ_pos k)
    have h2 : (d.advance (k + 1)).offset <
        (d.advance ((Lexeme.read d.behind x t).size + 1)).offset := by
      have := @Cursor.offset_lt_advance (d.advance (k + 1)) ((Lexeme.read d.behind x t).size - k) hp
        (by omega)
      rwa [Cursor.advance_advance, show k + 1 + ((Lexeme.read d.behind x t).size - k) =
        (Lexeme.read d.behind x t).size + 1 by omega] at this
    rw [← hs1] at h1
    rw [← hs2] at h2
    rcases Lexeme.read_cases d.behind x t with hc | ⟨hx, hc⟩ | hc
    · rw [hc] at hk
      exact Nat.not_lt_zero k hk
    · -- inside a word, with word characters on both sides
      rw [hc] at hk
      dsimp only at hk
      rw [Cursor.behind_advance, Cursor.ahead_advance, hd, List.drop_succ_cons,
        List.take_succ_cons] at hword
      obtain ⟨y, u, hy⟩ : ∃ y u, t.drop k = y :: u :=
        List.exists_cons_of_ne_nil fun hn => hp (by rw [Cursor.ahead_advance, hd]; exact hn)
      rcases hword with hword | hword
      · exact not_noWord_of_le_wordEnd hx hk.le _ hword
      · rw [hy] at hword
        exact hword y rfl (isWordChar_of_lt_wordEnd hk hy)
    · rw [← hkind] at hc
      rcases hides_or h1 h2 with hh | hh | hh
      · exact h s hs hh
      · exact hc (by simp [hh])
      · exact hc (by simp [hh])

/-! ### Hidden imports -/

variable {i : Import} {e : Cursor}

theorem not_hides_of_walk (hw : Walk (Cursor.start source) [] p) (hr : Read i p e) (s : Span)
    (hs : s ∈ spans source) : ¬ s.hides i.start := by
  obtain ⟨q, rest, hq, hin, hp, -, hstart, -⟩ := hr.shape
  rw [quoted_append] at hp
  rw [hstart]
  refine not_hides_place hw hp ?_ s hs
  rw [Lexeme.read_string hq (stringEnd?_append hq rest hin)]
  exact List.mem_cons_self

theorem walk_of_not_hides (ho : (Cursor.start source).Onward p) (hr : Read i p e)
    (h : ∀ s ∈ spans source, ¬ s.hides i.start) : Walk (Cursor.start source) [] p := by
  obtain ⟨q, rest, hq, -, hp, -, hstart, -⟩ := hr.shape
  rw [quoted_append] at hp
  have hword : NoWord p.ahead := hp ▸ noWord_cons (not_isWordChar_of_isQuote hq) _
  exact walk_of_not_hides_place ho (by simp [hp]) (Or.inr hword) (hstart ▸ h)

/-! ### The order of leaps and imports -/

/-- What the scan does besides moving by lexemes: it leaps over a brace list, or finds an import. -/
inductive Event
  | leap (landing : Cursor)
  | found (i : Import)
  deriving DecidableEq, Repr

/-- The events of the scan from a place on: in each step first the leaps, then the import. -/
def eventsFrom (c : Cursor) : List Event :=
  match _h : c.ahead with
  | [] => []
  | x :: t =>
    (stepLandings c x t).map .leap ++ ((step c x t).1.toList.map .found ++ eventsFrom (step c x t).2)
termination_by c.ahead.length
decreasing_by exact length_step_lt (by assumption)

/-- **The events of the scan of a source.** -/
def events (source : Text) : List Event := eventsFrom (Cursor.start source)

/-- The import that an event finds. -/
def Event.import? : Event → Option Import
  | leap _ => none
  | found i => some i

theorem filterMap_map_leap (ls : List Cursor) :
    (ls.map Event.leap).filterMap Event.import? = [] := by
  rw [List.filterMap_map]
  exact List.filterMap_eq_nil_iff.mpr fun _ _ => rfl

theorem filterMap_map_found (is : List Import) :
    (is.map Event.found).filterMap Event.import? = is := by
  rw [List.filterMap_map]
  exact List.filterMap_some

/-- The events find what the scan finds, in its order. -/
theorem filterMap_eventsFrom (c : Cursor) : (eventsFrom c).filterMap Event.import? = scanFrom c := by
  fun_induction eventsFrom c with
  | case1 c h => rw [scanFrom_nil h]; rfl
  | case2 c x t h ih =>
    rw [List.filterMap_append, List.filterMap_append, filterMap_map_leap, filterMap_map_found, ih,
      List.nil_append, scanFrom_cons h]

theorem found_mem_eventsFrom {c : Cursor} {i : Import} :
    Event.found i ∈ eventsFrom c ↔ i ∈ scanFrom c := by
  rw [← filterMap_eventsFrom, List.mem_filterMap]
  constructor
  · intro h
    exact ⟨_, h, rfl⟩
  · rintro ⟨e, he, hi⟩
    cases e with
    | leap d => exact absurd hi (by simp [Event.import?])
    | found j =>
      cases hi
      exact he

/-! ### Strays -/

/-- After its last leap a walk moves by lexemes. -/
theorem Walk.last {c p : Cursor} {ls : List Cursor} (h : Walk c ls p) :
    ls = [] ∧ Walk c [] p ∨ ∃ ms d, ls = ms ++ [d] ∧ c.Onward d ∧ Walk d [] p := by
  induction h with
  | stay => exact Or.inl ⟨rfl, Walk.stay⟩
  | lexeme _ hd ih =>
    rcases ih with ⟨hl, h⟩ | ⟨ms, d, hl, ho, h⟩
    · exact Or.inl ⟨hl, h.lexeme hd⟩
    · exact Or.inr ⟨ms, d, hl, ho, h.lexeme hd⟩
  | @leap ls d n h _ =>
    have ho := h.onward.trans (Cursor.onward_advance n d)
    exact Or.inr ⟨ls, _, rfl, ho, Walk.stay⟩

/-- The scan at a place is in step with the lexemes, or the last event was a leap that landed off the
boundaries. -/
def InStep (source : Text) (prior : List Event) (c : Cursor) : Prop :=
  Walk (Cursor.start source) [] c ∨
    ∃ es d, prior = es ++ [.leap d] ∧ d.offset ∉ boundaries source

theorem InStep.walk {prior : List Event} {c p : Cursor} {ls : List Cursor}
    (ho : (Cursor.start source).Onward c) (h : InStep source prior c) (hw : Walk c ls p) :
    InStep source (prior ++ ls.map .leap) p := by
  rcases hw.last with ⟨rfl, hw⟩ | ⟨ms, d, rfl, hd, hw⟩
  · rw [List.map_nil, List.append_nil]
    rcases h with h | h
    · exact Or.inl (h.trans hw)
    · exact Or.inr h
  · by_cases hb : d.offset ∈ boundaries source
    · exact Or.inl ((walk_of_mem_boundaries (ho.trans hd) hb).trans hw)
    · exact Or.inr ⟨prior ++ ms.map .leap, d, by simp, hb⟩

/-- **The first import after a stray leap decides.** If it is read from a boundary, all are. -/
theorem start_mem_boundaries {c : Cursor} (prior : List Event)
    (ho : (Cursor.start source).Onward c) (hs : InStep source prior c)
    (h : ∀ d i, [.leap d, .found i] <:+: prior ++ eventsFrom c → d.offset ∉ boundaries source →
      i.start ∈ boundaries source) :
    ∀ i ∈ scanFrom c, i.start ∈ boundaries source := by
  fun_induction eventsFrom c generalizing prior with
  | case1 c hc =>
    intro i hi
    rw [scanFrom_nil hc] at hi
    exact absurd hi List.not_mem_nil
  | case2 c x t hc ih =>
    obtain ⟨p, hw, he⟩ := walk_step hc
    have hp := ho.trans hw.onward
    have hin := hs.walk ho hw
    rw [← List.append_assoc] at h
    rw [scanFrom_cons hc]
    cases hi : (step c x t).1 with
    | none =>
      rw [hi] at h
      have hnext := he.eq_of_none hi
      rw [hnext] at ih h ⊢
      exact ih _ hp hin h
    | some i =>
      rw [hi] at h
      have hr := he.read hi
      have hstart : i.start = p.offset := by
        obtain ⟨-, -, -, -, -, -, hstart, -⟩ := hr.shape
        exact hstart
      have hb : i.start ∈ boundaries source := by
        rcases hin with hin | ⟨es, d, hl, hd⟩
        · exact mem_boundaries_iff.mpr ⟨p, hin, hstart.symm⟩
        · refine h d i ⟨es, eventsFrom (step c x t).2, ?_⟩ hd
          rw [hl]
          simp
      have hnext := hr.walk (walk_of_mem_boundaries hp (hstart ▸ hb))
      have ih' := ih (prior ++ (stepLandings c x t).map .leap ++ [.found i]) (hp.trans hr.onward)
        (Or.inl hnext) (by simpa using h)
      intro j hj
      rcases List.mem_append.mp hj with hj | hj
      · obtain rfl : j = i := by simpa using hj
        exact hb
      · exact ih' j hj

/-- **When no import is hidden.** The imports of a source all lie outside its comments, template
literals, regular expressions and other strings exactly if the scan is back at a boundary of the
lexemes whenever it reports an import right after a leap that has landed off the boundaries. -/
theorem unhidden_iff (source : Text) :
    (∀ i ∈ scan source, ∀ s ∈ spans source, ¬ s.hides i.start) ↔
      ∀ d i, [Event.leap d, .found i] <:+: events source → d.offset ∉ boundaries source →
        i.start ∈ boundaries source := by
  constructor
  · intro h d i hpart _
    have hi : i ∈ scan source := found_mem_eventsFrom.mp (hpart.subset (by simp))
    obtain ⟨p, e, ho, hr⟩ := read_of_mem_scanFrom hi
    obtain ⟨-, -, -, -, -, -, hstart, -⟩ := hr.shape
    exact mem_boundaries_iff.mpr ⟨p, walk_of_not_hides ho hr (h i hi), hstart.symm⟩
  · intro h i hi
    have hb := start_mem_boundaries [] (Cursor.Onward.refl _) (Or.inl Walk.stay) h i hi
    obtain ⟨p, e, ho, hr⟩ := read_of_mem_scanFrom hi
    obtain ⟨-, -, -, -, -, -, hstart, -⟩ := hr.shape
    exact not_hides_of_walk (walk_of_mem_boundaries ho (hstart ▸ hb)) hr

/-- A comment in a brace list that holds a closing brace: the scan goes on inside the comment. -/
theorem exists_hidden :
    ∃ i ∈ scan "import \x7b/*\x7d from \x27x\x27*/\x7d from \x27y\x27".toList,
      ∃ s ∈ spans "import \x7b/*\x7d from \x27x\x27*/\x7d from \x27y\x27".toList,
        s.hides i.start := by
  refine ⟨⟨17, 20, ['x'], .static⟩, ?_, ⟨.comment, 8, 22⟩, ?_, ?_⟩
  · decide +kernel
  · decide +kernel
  · decide

end Unbundled.Import
