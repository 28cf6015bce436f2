import Unbundled.Proofs.Json.Literals

/-! # What is written is read

A text that the grammar derives is read as its value, nested to any depth.

The reader is fed one token after another (`State.feed`). A value that is fed where one is awaited, with
any arrays and objects open around it, leaves the state that follows the value (`IsValue.feed`); for the
items of an array and the members of an object, the frame that is open holds those before
(`IsItems.feed`, `IsMembers.feed`).

* `read?_of_isText`: the value of a whole text. -/

namespace Unbundled.Json

open Token (lex? isGap isNumberChar ofMark? ofLetters?)

variable {c : Char} {acc : List (Text × Json)} {g raw t u w : Text} {s s' : State} {tok : Token}
  {v : Json} {done items : List Json} {members : List (Text × Json)} {outer : List Frame}

/-! ### Tokens -/

/-- A text that goes on with no number and no word. -/
def Stops (t : Text) : Prop := ∀ c ∈ t.head?, ¬ isNumberChar c ∧ ¬ c.isAlpha

theorem isGap_iff : isGap c ↔ c = ' ' ∨ c = '\t' ∨ c = '\n' ∨ c = '\r' := by
  simp [isGap, or_assoc]

theorem stops_nil : Stops [] := by simp [Stops]

theorem stops_cons (hc : ¬ isNumberChar c ∧ ¬ c.isAlpha) (t : Text) : Stops (c :: t) :=
  fun _ h => Option.some.inj h ▸ hc

theorem IsGap.stops_append (hg : IsGap g) (ht : Stops t) : Stops (g ++ t) := by
  cases g with
  | nil => exact ht
  | cons c g =>
    have hc := hg c List.mem_cons_self
    refine stops_cons ?_ (g ++ t)
    rcases hc with rfl | rfl | rfl | rfl <;> decide

theorem lex?_gap (hg : IsGap g) (t : Text) : lex? (g ++ t) = lex? t := by
  induction g with
  | nil => rfl
  | cons c g ih =>
    rw [List.cons_append, lex?, if_pos (isGap_iff.mpr (hg c List.mem_cons_self))]
    exact ih fun c hc => hg c (List.mem_cons_of_mem _ hc)

theorem lex?_mark (hc : ofMark? c = some tok) (t : Text) :
    lex? (c :: t) = (lex? t).map (tok :: ·) := by
  have hgap : ¬ isGap c := by
    intro h
    rcases isGap_iff.mp h with rfl | rfl | rfl | rfl <;> exact absurd hc (Option.some_ne_none _).symm
  rw [lex?, if_neg hgap, hc]

theorem lex?_string (hr : IsString raw) (t : Text) :
    lex? ('"' :: (raw ++ '"' :: t)) = (lex? t).map (.string raw :: ·) := by
  have hmark : ofMark? '"' = none := rfl
  have hdrop : (raw ++ '"' :: t).drop (raw.length + 1) = t := by
    rw [← List.drop_drop, List.drop_left]
    rfl
  rw [lex?, if_neg (by decide), hmark]
  dsimp only
  rw [if_pos rfl, hr.stringSize?_append, Option.bind_some, List.take_left, if_pos hr.wellEscaped, hdrop]

/-- The first character of a number or a word is neither white space nor a mark nor a quote. -/
theorem lex?_run (hc : isNumberChar c ∨ c.isAlpha) (t : Text) : lex? (c :: t) =
    if isNumberChar c then
      if Token.isNumber (c :: t.take (t.takeWhile isNumberChar).length) then
        (lex? (t.drop (t.takeWhile isNumberChar).length)).map
          (.number (c :: t.take (t.takeWhile isNumberChar).length) :: ·)
      else none
    else
      (ofLetters? (c :: t.take (t.takeWhile Char.isAlpha).length)).bind fun word =>
        (lex? (t.drop (t.takeWhile Char.isAlpha).length)).map (word :: ·) := by
  have hne : ∀ d, ¬ (isNumberChar d ∨ d.isAlpha) → c ≠ d := by
    rintro d hd rfl
    exact hd hc
  have hgap : ¬ isGap c := by
    intro h
    rcases isGap_iff.mp h with rfl | rfl | rfl | rfl <;> exact absurd hc (by decide)
  have hmark : ofMark? c = none := by
    rw [ofMark?, if_neg (hne _ (by decide)), if_neg (hne _ (by decide)), if_neg (hne _ (by decide)),
      if_neg (hne _ (by decide)), if_neg (hne _ (by decide)), if_neg (hne _ (by decide))]
  rw [lex?, if_neg hgap, hmark]
  dsimp only
  rw [if_neg (hne '"' (by decide))]

theorem lex?_number (hn : IsNumber w) (ht : Stops t) :
    lex? (w ++ t) = (lex? t).map (.number w :: ·) := by
  have hchars := hn.isNumberChar
  have hnumber := hn.isNumber
  cases w with
  | nil => exact absurd hnumber (by decide)
  | cons c w =>
    have hc := hchars c List.mem_cons_self
    have htake : (w ++ t).takeWhile isNumberChar = w :=
      (Text.span_stop (fun x hx => hchars x (List.mem_cons_of_mem _ hx)) fun x hx => (ht x hx).1).1
    rw [List.cons_append, lex?_run (Or.inl hc), if_pos hc, htake, List.take_left, List.drop_left,
      if_pos hnumber]

theorem lex?_word (hc : ¬ isNumberChar c ∧ c.isAlpha) (hw : w.all Char.isAlpha)
    (htok : ofLetters? (c :: w) = some tok) (ht : Stops t) :
    lex? (c :: (w ++ t)) = (lex? t).map (tok :: ·) := by
  have htake : (w ++ t).takeWhile Char.isAlpha = w :=
    (Text.span_stop (List.all_eq_true.mp hw) fun x hx => (ht x hx).2).1
  rw [lex?_run (Or.inr hc.2), if_neg hc.1, htake, List.take_left, List.drop_left, htok, Option.bind_some]

/-! ### Feeding the reader -/

/-- The state after the tokens of a text. -/
def State.feed (s : State) (t : Text) : Option State := (lex? t).bind s.run

theorem feed_gap (s : State) (hg : IsGap g) (t : Text) : s.feed (g ++ t) = s.feed t := by
  rw [State.feed, lex?_gap hg, State.feed]

theorem feed_token (ht : lex? t = (lex? u).map (tok :: ·)) (hs : s.step tok = some s') :
    s.feed t = s'.feed u := by
  have hrun : ∀ ts, s.run (tok :: ts) = s'.run ts := fun ts => by rw [State.run, hs, Option.bind_some]
  simp only [State.feed, ht, Option.bind_map, Function.comp_def, hrun]

theorem feed_mark (hc : ofMark? c = some tok) (hs : s.step tok = some s') (t : Text) :
    s.feed (c :: t) = s'.feed t :=
  feed_token (lex?_mark hc t) hs

/-- A value may stand here. -/
def Awaits (s : State) (outer : List Frame) : Prop :=
  ∀ tok, tok ≠ .bracketClose → s.step tok = State.start outer tok

/-- A key may stand here, after the given members. -/
def AwaitsKey (s : State) (acc : List (Text × Json)) (outer : List Frame) : Prop :=
  ∀ raw, s.step (.string raw) = some (.colon acc raw outer)

theorem awaits_value (outer : List Frame) : Awaits (.value outer) outer := fun _ _ => rfl

theorem awaits_firstItem (outer : List Frame) : Awaits (.firstItem outer) (.array [] :: outer) := by
  intro tok htok
  cases tok with
  | bracketClose => exact absurd rfl htok
  | _ => rfl

theorem awaitsKey_firstKey (outer : List Frame) : AwaitsKey (.firstKey outer) [] outer := fun _ => rfl

theorem awaitsKey_nextKey (acc : List (Text × Json)) (outer : List Frame) :
    AwaitsKey (.nextKey acc outer) acc outer := fun _ => rfl

theorem enclosed_append (c d : Char) (t u : Text) : c :: (t ++ [d]) ++ u = c :: (t ++ d :: u) := by
  rw [List.cons_append, List.append_assoc, List.singleton_append]

/-- A key and its colon, with the white space around them. -/
theorem feed_key {g' key : Text} (hg : IsGap g) (hk : IsString key) (hg' : IsGap g')
    (hs : AwaitsKey s acc outer) (t : Text) :
    s.feed (g ++ '"' :: (key ++ '"' :: (g' ++ ':' :: t))) =
      (State.value (.object acc key :: outer)).feed t :=
  calc s.feed (g ++ '"' :: (key ++ '"' :: (g' ++ ':' :: t)))
    _ = s.feed ('"' :: (key ++ '"' :: (g' ++ ':' :: t))) := feed_gap s hg _
    _ = (State.colon acc key outer).feed (g' ++ ':' :: t) := feed_token (lex?_string hk _) (hs key)
    _ = (State.colon acc key outer).feed (':' :: t) := feed_gap _ hg' _
    _ = (State.value (.object acc key :: outer)).feed t := feed_mark rfl rfl t

/-! ### The grammar is fed

The induction is on the derivation, for values, items and members together. What is fed before a frame is
closed has its items or members the latest first. -/

mutual

theorem IsValue.feed {v : Json} {t : Text} (h : IsValue v t) {s : State} {outer : List Frame}
    (hs : Awaits s outer) {u : Text} (hu : Stops u) :
    s.feed (t ++ u) = (State.after v outer).feed u := by
  match h with
  | .null => exact feed_token (lex?_word (by decide) (by decide) rfl hu) (hs .null nofun)
  | .true => exact feed_token (lex?_word (by decide) (by decide) rfl hu) (hs .true nofun)
  | .false => exact feed_token (lex?_word (by decide) (by decide) rfl hu) (hs .false nofun)
  | .number hd => exact feed_token (lex?_number hd hu) (hs _ nofun)
  | @IsValue.string raw hr =>
    rw [enclosed_append]
    exact feed_token (lex?_string hr u) (hs (.string raw) nofun)
  | @IsValue.emptyArray g hg =>
    rw [enclosed_append]
    calc s.feed ('[' :: (g ++ ']' :: u))
      _ = (State.firstItem outer).feed (g ++ ']' :: u) := feed_mark rfl (hs .bracketOpen nofun) _
      _ = (State.firstItem outer).feed (']' :: u) := feed_gap _ hg _
      _ = (State.after (.array []) outer).feed u := feed_mark rfl rfl u
  | @IsValue.array items t ht =>
    rw [enclosed_append]
    calc s.feed ('[' :: (t ++ ']' :: u))
      _ = (State.firstItem outer).feed (t ++ ']' :: u) := feed_mark rfl (hs .bracketOpen nofun) _
      _ = (State.after (.array items) outer).feed u := ht.feed (awaits_firstItem outer) u
  | @IsValue.emptyObject g hg =>
    rw [enclosed_append]
    calc s.feed ('\x7b' :: (g ++ '\x7d' :: u))
      _ = (State.firstKey outer).feed (g ++ '\x7d' :: u) := feed_mark rfl (hs .braceOpen nofun) _
      _ = (State.firstKey outer).feed ('\x7d' :: u) := feed_gap _ hg _
      _ = (State.after (.object []) outer).feed u := feed_mark rfl rfl u
  | @IsValue.object members t ht =>
    rw [enclosed_append]
    calc s.feed ('\x7b' :: (t ++ '\x7d' :: u))
      _ = (State.firstKey outer).feed (t ++ '\x7d' :: u) := feed_mark rfl (hs .braceOpen nofun) _
      _ = (State.after (.object members) outer).feed u := ht.feed (awaitsKey_firstKey outer) u

theorem IsText.feed {v : Json} {t : Text} (h : IsText v t) {s : State} {outer : List Frame}
    (hs : Awaits s outer) {u : Text} (hu : Stops u) :
    s.feed (t ++ u) = (State.after v outer).feed u := by
  match h with
  | @IsText.gaps v g t g' hg hv hg' =>
    rw [List.append_assoc, List.append_assoc, feed_gap s hg, hv.feed hs (hg'.stops_append hu),
      feed_gap _ hg']

theorem IsItems.feed {items : List Json} {t : Text} (h : IsItems items t) {s : State}
    {done : List Json} {outer : List Frame} (hs : Awaits s (.array done :: outer)) (u : Text) :
    s.feed (t ++ ']' :: u) = (State.after (.array (done.reverse ++ items)) outer).feed u := by
  match h with
  | @IsItems.last v t hv =>
    have hstop : Stops (']' :: u) := stops_cons (by decide) u
    rw [← List.reverse_cons]
    calc s.feed (t ++ ']' :: u)
      _ = (State.next (.array (v :: done)) outer).feed (']' :: u) := hv.feed hs hstop
      _ = (State.after (.array (v :: done).reverse) outer).feed u := feed_mark rfl rfl u
  | @IsItems.more v items t t' hv ht' =>
    have hstop : Stops (',' :: (t' ++ ']' :: u)) := stops_cons (by decide) _
    rw [← List.singleton_append (x := v), ← List.append_assoc, ← List.reverse_cons, List.append_assoc,
      List.cons_append]
    calc s.feed (t ++ ',' :: (t' ++ ']' :: u))
      _ = (State.next (.array (v :: done)) outer).feed (',' :: (t' ++ ']' :: u)) := hv.feed hs hstop
      _ = (State.value (.array (v :: done) :: outer)).feed (t' ++ ']' :: u) := feed_mark rfl rfl _
      _ = (State.after (.array ((v :: done).reverse ++ items)) outer).feed u :=
        ht'.feed (awaits_value _) u

theorem IsMembers.feed {members : List (Text × Json)} {t : Text} (h : IsMembers members t)
    {s : State} {acc : List (Text × Json)} {outer : List Frame} (hs : AwaitsKey s acc outer)
    (u : Text) :
    s.feed (t ++ '\x7d' :: u) = (State.after (.object (acc.reverse ++ members)) outer).feed u := by
  match h with
  | @IsMembers.last g key g' t v hg hk hg' hv =>
    have hstop : Stops ('\x7d' :: u) := stops_cons (by decide) u
    simp only [List.append_assoc, List.cons_append, ← List.reverse_cons]
    calc s.feed (g ++ '"' :: (key ++ '"' :: (g' ++ ':' :: (t ++ '\x7d' :: u))))
      _ = (State.value (.object acc key :: outer)).feed (t ++ '\x7d' :: u) := feed_key hg hk hg' hs _
      _ = (State.next (.object ((key, v) :: acc) []) outer).feed ('\x7d' :: u) :=
        hv.feed (awaits_value _) hstop
      _ = (State.after (.object ((key, v) :: acc).reverse) outer).feed u := feed_mark rfl rfl u
  | @IsMembers.more g key g' t t' v members hg hk hg' hv ht' =>
    have hstop : Stops (',' :: (t' ++ '\x7d' :: u)) := stops_cons (by decide) _
    rw [← List.singleton_append (x := (key, v)), ← List.append_assoc, ← List.reverse_cons]
    simp only [List.append_assoc, List.cons_append]
    calc s.feed (g ++ '"' :: (key ++ '"' :: (g' ++ ':' :: (t ++ ',' :: (t' ++ '\x7d' :: u)))))
      _ = (State.value (.object acc key :: outer)).feed (t ++ ',' :: (t' ++ '\x7d' :: u)) :=
        feed_key hg hk hg' hs _
      _ = (State.next (.object ((key, v) :: acc) []) outer).feed (',' :: (t' ++ '\x7d' :: u)) :=
        hv.feed (awaits_value _) hstop
      _ = (State.nextKey ((key, v) :: acc) outer).feed (t' ++ '\x7d' :: u) := feed_mark rfl rfl _
      _ = (State.after (.object (((key, v) :: acc).reverse ++ members)) outer).feed u :=
        ht'.feed (awaitsKey_nextKey _ outer) u

end

/-- A value without white space around it. -/
theorem IsValue.isText (hv : IsValue v t) : IsText v t := by
  have hnone : IsGap [] := List.forall_mem_nil _
  have h := IsText.gaps hnone hv hnone
  rwa [List.nil_append, List.append_nil] at h

/-- **A text that the grammar derives is read as its value.** -/
theorem read?_of_isText (h : IsText v t) : read? t = some v := by
  have hfeed := h.feed (awaits_value []) stops_nil
  rw [List.append_nil] at hfeed
  have hdone : (State.after v []).feed [] = some (.done v) := by
    rw [State.feed, lex?]
    rfl
  rw [hdone, State.feed, Option.bind_eq_some_iff] at hfeed
  obtain ⟨tokens, hlex, hrun⟩ := hfeed
  rw [read?, hlex, Option.bind_some, hrun]

end Unbundled.Json
