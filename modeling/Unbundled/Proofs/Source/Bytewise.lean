import Unbundled.Proofs.Source.Continued
import Unbundled.Proofs.Source.Units

/-! # Readers by index find the lexemes

At the offset of a place, the readers by index do not fail, and they lead to the offset where the lexeme
at this place ends. The lemmas `…_offset` say so for each reader. Template literals are in a module of
their own.

A reader that looks back gives what the characters behind the place give (`solidByte?_offset`,
`regexAllowed?_offset`). -/

namespace Unbundled.Source.Indexed

variable {source t : Text} {c : Cursor} {x y q : Char} {n : Nat}

theorem byteAt?_end (hc : c.whole = source) (h : c.ahead = []) : byteAt? source c.offset = none :=
  byteAt?_nil hc h 0

theorem whole_advance (hc : c.whole = source) (n : Nat) : (c.advance n).whole = source :=
  (Cursor.whole_advance n c).trans hc

theorem ahead_advance_one (h : c.ahead = x :: t) : (c.advance 1).ahead = t := by
  rw [Cursor.ahead_advance, h]
  rfl

theorem eq_nil_of_not_cons (h : ∀ y u, t = y :: u → False) : t = [] := by
  cases t with
  | nil => rfl
  | cons y u => exact (h y u rfl).elim

/-! ### Turns of a loop at a place -/

section Turns

variable {σ α : Type} {turn : σ → Nat → Char → Option (Sequel σ α)} {last : σ → Nat → α} {s s' : σ}

theorem loop_one (hc : c.whole = source) (h : c.ahead = x :: t) (hx : isWide x = false)
    (ht : turn s c.offset x = some (.next s' (c.offset + 1))) :
    loop source turn last s c.offset = loop source turn last s' (c.advance 1).offset := by
  rw [loop_next (byteAt?_ascii hc h hx) ht (Nat.lt_succ_self _), offset_advance_ascii h hx]

/-- A backslash leads over the character after it. -/
theorem loop_two (hpass : PassesWide source (loop source turn last s)) (hc : c.whole = source)
    (h : c.ahead = '\\' :: x :: t) (ht : turn s c.offset '\\' = some (.next s (c.offset + 2))) :
    loop source turn last s c.offset = loop source turn last s (c.advance 2).offset := by
  rw [loop_next (byteAt?_ascii hc h (by decide)) ht (Nat.lt_add_of_pos_right Nat.two_pos),
    hpass.jump hc h (by decide)]

/-- A backslash at the end leads over it, and the loop ends. -/
theorem loop_overrun (hc : c.whole = source) (h : c.ahead = ['\\'])
    (ht : turn s c.offset '\\' = some (.next s (c.offset + 2))) :
    loop source turn last s c.offset = some (last s (c.offset + 2)) := by
  rw [loop_next (byteAt?_ascii hc h (by decide)) ht (Nat.lt_add_of_pos_right Nat.two_pos), loop_none]
  rw [byteAt?_offset hc, h]
  rfl

end Turns

/-! ### Words -/

theorem spanEnd?_offset {p : Char → Bool} (hp : AsciiOnly p) (hc : c.whole = source) :
    spanEnd? source p c.offset = some (c.advance (c.ahead.takeWhile p).length).offset := by
  generalize ht : c.ahead = t
  induction t generalizing c with
  | nil =>
    rw [spanEnd?, loop_none (byteAt?_end hc ht)]
    rfl
  | cons x t ih =>
    obtain ⟨y, hy, hb⟩ := exists_byteAt? hc ht
    by_cases hx : p x
    · have hnext := ih (whole_advance hc 1) (ahead_advance_one ht)
      rw [spanEnd?, Cursor.advance_advance] at hnext
      rw [spanEnd?, loop_one hc ht (hp x hx) (by rw [if_pos hx]), hnext, List.takeWhile_cons_of_pos hx,
        List.length_cons, Nat.add_comm]
    · have hy : ¬ p y := by rwa [hy.class_eq hp]
      rw [spanEnd?, loop_done hb (by rw [if_neg hy]), List.takeWhile_cons_of_neg hx]
      rfl

theorem wordEnd?_offset (hc : c.whole = source) :
    wordEnd? source c.offset = some (c.advance (wordEnd c.ahead)).offset :=
  spanEnd?_offset asciiOnly_isWordChar hc

/-! ### Comments -/

section Search

variable {pat : Text}

theorem units_of_ascii (h : isAscii t) : units t = t := by
  induction t with
  | nil => rfl
  | cons x t ih =>
    obtain ⟨hx, ht⟩ := isAscii_cons.mp h
    rw [units_cons_ascii hx, ih ht]

theorem bytes_of_ascii (h : isAscii t) : Text.bytes t = t.length := by
  rw [← size_eq_bytes, ← length_units, units_of_ascii h]

theorem isPrefix_units_iff (hp : isAscii pat) : pat <+: units t ↔ pat <+: t := by
  constructor
  · induction pat generalizing t with
    | nil => exact fun _ => List.nil_prefix
    | cons z pat ih =>
      intro h
      obtain ⟨hz, hp⟩ := isAscii_cons.mp hp
      cases t with
      | nil => exact absurd h (by simp [units, Text.encode])
      | cons x t =>
        cases hx : isWide x with
        | false =>
          rw [units_cons_ascii hx, List.cons_prefix_cons] at h
          exact List.cons_prefix_cons.mpr ⟨h.1, ih hp h.2⟩
        | true =>
          have hne : units [x] ≠ [] := List.length_pos_iff.mp
            (by rw [length_units_singleton]; exact x.utf8Size_pos)
          obtain ⟨y, u, hu⟩ := List.exists_cons_of_ne_nil hne
          rw [units_cons, hu, List.cons_append, List.cons_prefix_cons] at h
          have hy := isWide_of_mem_units hx y (hu ▸ List.mem_cons_self)
          rw [← h.1, hz] at hy
          exact absurd hy (by decide)
  · rintro ⟨u, rfl⟩
    rw [units_append, units_of_ascii hp]
    exact List.prefix_append _ _

/-- An ASCII pattern is found among the bytes where it is found in the text. -/
theorem cut?_units (hp : isAscii pat) (hne : pat ≠ []) (t : Text) :
    Text.cut? pat (units t) = (Text.cut? pat t).map fun parts => (units parts.1, units parts.2) := by
  induction t with
  | nil =>
    rw [show units [] = [] from rfl, Text.cut?, if_neg hne]
    rfl
  | cons x t ih =>
    cases hx : isWide x with
    | false =>
      rw [Text.cut?_cons pat x t, units_cons_ascii hx, Text.cut?_cons, ← units_cons_ascii hx]
      by_cases hpre : pat <+: x :: t
      · rw [if_pos ((isPrefix_units_iff hp).mpr hpre), if_pos hpre]
        obtain ⟨u, hu⟩ := hpre
        rw [← hu, units_append, units_of_ascii hp, List.drop_left, List.drop_left]
        rfl
      · rw [if_neg (fun h => hpre ((isPrefix_units_iff hp).mp h)), if_neg hpre, ih, Option.map_map,
          Option.map_map]
        exact congrArg (Option.map · _) (funext fun p => by simp [units_cons_ascii hx p.1])
    | true =>
      have htails : ∀ s ∈ (units [x]).tails, s ≠ [] → ¬ s <+: pat := by
        rintro s hs hs' ⟨r, rfl⟩
        obtain ⟨y, s, rfl⟩ := List.exists_cons_of_ne_nil hs'
        have hy := isWide_of_mem_units hx y (((List.mem_tails _ _).mp hs).subset List.mem_cons_self)
        rw [isWide_of_isAscii hp (by simp)] at hy
        exact absurd hy (by decide)
      have hno : ¬ pat <:+: units [x] := by
        intro h
        obtain ⟨z, p, rfl⟩ := List.exists_cons_of_ne_nil hne
        have hz := isWide_of_mem_units hx z (h.subset List.mem_cons_self)
        rw [isWide_of_isAscii hp List.mem_cons_self] at hz
        exact absurd hz (by decide)
      have hpre : ¬ pat <+: x :: t := by
        intro h
        obtain ⟨z, p, rfl⟩ := List.exists_cons_of_ne_nil hne
        have hz := isWide_of_isAscii hp List.mem_cons_self
        rw [(List.cons_prefix_cons.mp h).1, hx] at hz
        exact absurd hz (by decide)
      rw [units_cons, Text.cut?_append hno (Text.noSeam_of_tails htails _), ih, Text.cut?_cons,
        if_neg hpre, Option.map_map, Option.map_map]
      exact congrArg (Option.map · _) (funext fun p => by simp [units_cons x p.1])

theorem find?_offset (hc : c.whole = source) (hp : isAscii pat) (hne : pat ≠ []) :
    find? source pat c.offset =
      some ((Text.cut? pat c.ahead).map fun parts => Text.bytes parts.1) := by
  have hdrop : (units source).drop c.offset = units c.ahead := by
    refine List.ext_getElem? fun k => ?_
    rw [List.getElem?_drop]
    exact byteAt?_offset hc k
  rw [find?, if_pos (offset_le_size hc), hdrop, cut?_units hp hne, Option.map_map]
  exact congrArg (fun f => some (Option.map f _))
    (funext fun parts => (length_units parts.1).trans (size_eq_bytes parts.1))

/-- The place behind the first occurrence of an ASCII pattern. -/
theorem offset_advance_cut {s u : Text} (hp : isAscii pat)
    (hcut : Text.cut? pat c.ahead = some (s, u)) :
    (c.advance (s.length + pat.length)).offset = c.offset + Text.bytes s + pat.length := by
  have hlen : s.length + pat.length = (s ++ pat).length := (List.length_append ..).symm
  rw [Cursor.offset_advance, Text.append_of_cut? hcut, hlen, List.take_left, Text.bytes_append,
    bytes_of_ascii hp, Nat.add_assoc]

/-- The end of the text up to a closing mark, from a place behind the opening one. -/
theorem find?_close (hc : c.whole = source) (hp : isAscii pat) (hne : pat ≠ []) :
    ((find? source pat c.offset).bind fun found =>
      some ((found.map fun n => c.offset + n + pat.length).getD (size source))) =
      some (c.advance (((Text.cut? pat c.ahead).map fun parts => parts.1.length + pat.length).getD
        c.ahead.length)).offset := by
  rw [find?_offset hc hp hne, Option.bind_some]
  cases hcut : Text.cut? pat c.ahead with
  | none =>
    rw [← offset_finish hc]
    rfl
  | some parts =>
    simp only [Option.map_some, Option.getD_some]
    rw [offset_advance_cut hp hcut]

theorem lineEnd?_eq (t : Text) :
    lineEnd? t = (Text.cut? ['\n'] t).map fun parts => parts.1.length + 1 := by
  induction t with
  | nil => rfl
  | cons x t ih =>
    rw [lineEnd?, Text.cut?_cons, ih]
    by_cases hx : x = '\n'
    · rw [if_pos hx, if_pos (by simp [hx])]
      rfl
    · rw [if_neg hx, if_neg (by simp [Ne.symm hx]), Option.map_map, Option.map_map]
      rfl

theorem blockEnd?_eq (t : Text) :
    blockEnd? t = (Text.cut? ['*', '/'] t).map fun parts => parts.1.length + 2 := by
  fun_induction blockEnd? t with
  | case1 t => rw [Text.cut?_cons, if_pos ⟨t, rfl⟩]; rfl
  | case2 x t hx ih =>
    rw [Text.cut?_cons, if_neg, ih, Option.map_map, Option.map_map]
    · rfl
    · rintro ⟨u, hu⟩
      obtain ⟨rfl, rfl⟩ := List.cons.inj hu
      exact hx u rfl rfl
  | case3 => rfl

end Search

theorem opensComment_offset (hc : c.whole = source) (h : c.ahead = '/' :: t) :
    opensComment source c.offset = (commentEnd? t).isSome := by
  have h1 := ahead_advance_one h
  have hmark : ∀ z, isWide z = false →
      (byteAt? source (c.offset + 1) == some z) = (t.head? == some z) := by
    intro z hz
    rw [← offset_advance_ascii h (by decide), Bool.eq_iff_iff, beq_iff_eq, beq_iff_eq,
      byteAt?_eq_some_iff (whole_advance hc 1) hz, h1]
  rw [opensComment, hmark '/' (by decide), hmark '*' (by decide), commentEnd?.eq_def]
  split
  · rfl
  · rfl
  · rename_i h1 h2
    cases t with
    | nil => rfl
    | cons x t =>
      have h1 : x ≠ '/' := fun hx => h1 t (by rw [hx])
      have h2 : x ≠ '*' := fun hx => h2 t (by rw [hx])
      simp [h1, h2]

theorem comment?_offset (hc : c.whole = source) (h : c.ahead = '/' :: t)
    (hn : commentEnd? t = some n) : comment? source c.offset = some (c.advance (n + 1)).offset := by
  have h1 := ahead_advance_one h
  have hc1 := whole_advance hc 1
  have hoff := offset_advance_ascii h (by decide)
  obtain ⟨m, u, rfl, hm⟩ : ∃ m u, t = m :: u ∧ (m = '/' ∨ m = '*') := by
    unfold commentEnd? at hn
    split at hn
    · exact ⟨_, _, rfl, Or.inl rfl⟩
    · exact ⟨_, _, rfl, Or.inr rfl⟩
    · exact absurd hn (by simp)
  have hw : isWide m = false := by rcases hm with rfl | rfl <;> decide
  have hoff2 : (c.advance 2).offset = c.offset + 2 := by
    rw [← Cursor.advance_advance 1 1, offset_advance_ascii h1 hw, hoff]
  have hc2 := whole_advance hc 2
  have h2 : (c.advance 2).ahead = u := by rw [Cursor.ahead_advance, h]; rfl
  rw [comment?, ← hoff, byteAt?_ascii hc1 h1 hw, Option.bind_eq_bind, Option.bind_some]
  rcases hm with rfl | rfl
  · have hfind := find?_close hc2 (show isAscii ['\n'] by decide) (by decide)
    rw [h2, hoff2] at hfind
    obtain rfl := Option.some.inj hn
    rw [lineEnd?_eq, Nat.add_right_comm, ← Cursor.advance_advance]
    exact hfind
  · have hfind := find?_close hc2 (show isAscii ['*', '/'] by decide) (by decide)
    rw [h2, hoff2] at hfind
    obtain rfl := Option.some.inj hn
    rw [blockEnd?_eq, Nat.add_right_comm, ← Cursor.advance_advance]
    exact hfind

theorem trivia?_offset (hc : c.whole = source) :
    trivia? source c.offset = some (c.advance (triviaEnd c.ahead)).offset := by
  generalize ht : c.ahead = t
  fun_induction triviaEnd t generalizing c with
  | case1 =>
    rw [trivia?, loop_none (byteAt?_end hc ht)]
    rfl
  | case2 x t hx ih =>
    have hw := asciiOnly_isSpace x hx
    have hnext := ih (whole_advance hc 1) (ahead_advance_one ht)
    rw [trivia?, Cursor.advance_advance] at hnext
    rw [trivia?, loop_one hc ht hw (by rw [triviaTurn, if_pos hx]), hnext]
  | case3 t n hn hx ih =>
    have hend := comment?_offset hc ht hn
    have hnext := ih (whole_advance hc (n + 1)) (by rw [Cursor.ahead_advance, ht]; rfl)
    rw [trivia?, Cursor.advance_advance] at hnext
    rw [trivia?, loop_next (byteAt?_ascii hc ht (by decide)) _ (lt_of_comment? hend), hnext,
      Nat.add_comm 1 n]
    rw [triviaTurn, if_neg hx, opensComment_offset hc ht, hn, hend]
    rfl
  | case4 t hn hx =>
    refine loop_done (byteAt?_ascii hc ht (by decide)) ?_
    rw [triviaTurn, if_neg hx, opensComment_offset hc ht, hn]
    rfl
  | case5 x t hx hs =>
    obtain ⟨y, hy, hb⟩ := exists_byteAt? hc ht
    refine loop_done hb ?_
    rw [triviaTurn, hy.class_eq asciiOnly_isSpace, if_neg hx, if_neg]
    · rfl
    · simp [(hy.eq_iff (by decide)).not.mpr hs]

/-! ### Strings -/

theorem passesWide_string (hq : isQuote q) :
    PassesWide source (loop source (stringTurn q) (fun _ _ => none) ()) := by
  refine passesWide_loop (fun s i y hy => ?_) ()
  have hne : ∀ z, isWide z = false → y ≠ z := fun z => ne_of_isWide hy
  rw [stringTurn, if_neg (hne _ (by decide)), if_neg (hne _ (by decide)),
    if_neg (hne _ (asciiOnly_isQuote q hq))]

theorem loop_string_offset (hq : isQuote q) (hc : c.whole = source) :
    loop source (stringTurn q) (fun _ _ => none) () c.offset =
      some ((stringEnd? q c.ahead).map fun n => (c.advance n).offset) := by
  have hwide := asciiOnly_isQuote q hq
  generalize ht : c.ahead = t
  fun_induction stringEnd? q t generalizing c with
  | case1 x t ih =>
    have hnext := ih (whole_advance hc 2) (by rw [Cursor.ahead_advance, ht]; rfl)
    simp only [Cursor.advance_advance, Nat.add_comm 2] at hnext
    rw [loop_two (passesWide_string hq) hc ht (by rw [stringTurn, if_pos rfl]), hnext, Option.map_map]
    rfl
  | case2 t hx =>
    rw [loop_done (byteAt?_ascii hc ht (by decide))
      (by rw [stringTurn, if_neg (by decide), if_pos rfl])]
    rfl
  | case3 t hx hn =>
    have hne : q ≠ '\\' := by rintro rfl; exact absurd hq (by decide)
    rw [loop_done (byteAt?_ascii hc ht hwide)
      (by rw [stringTurn, if_neg hne, if_neg hn, if_pos rfl]), Option.map_some,
      offset_advance_ascii ht hwide]
  | case4 x t hx hn hxq ih =>
    by_cases hslash : x = '\\'
    · subst hslash
      obtain rfl : t = [] := eq_nil_of_not_cons fun y u => hx y u rfl
      exact loop_overrun hc ht (by rw [stringTurn, if_pos rfl])
    have hnext := ih (whole_advance hc 1) (ahead_advance_one ht)
    simp only [Cursor.advance_advance, Nat.add_comm 1] at hnext
    rw [(passesWide_string hq).step hc ht fun hw => loop_next (byteAt?_ascii hc ht hw)
      (by rw [stringTurn, if_neg hslash, if_neg hn, if_neg hxq]) (Nat.lt_succ_self _), hnext,
      Option.map_map]
    rfl
  | case5 => rw [loop_none (byteAt?_end hc ht)]; rfl

theorem string?_offset (hc : c.whole = source) (h : c.ahead = q :: t) (hq : isQuote q) :
    string? source c.offset = some ((stringEnd? q t).map fun n => (c.advance (n + 1)).offset) := by
  have hw := asciiOnly_isQuote q hq
  have hloop := loop_string_offset hq (whole_advance hc 1)
  rw [ahead_advance_one h, offset_advance_ascii h hw] at hloop
  simp only [Cursor.advance_advance, Nat.add_comm 1] at hloop
  rw [string?, byteAt?_ascii hc h hw]
  exact hloop

/-! ### Looking back -/

section Behind

variable {b : Text}

theorem offset_behind (h : c.behind = x :: b) : c.offset = x.utf8Size + Text.bytes b := by
  rw [Cursor.offset, h, Text.bytes_cons]

/-- The place before the last character. -/
theorem whole_back (hc : c.whole = source) (h : c.behind = x :: b) :
    (Cursor.mk b (x :: c.ahead)).whole = source := by
  rw [← hc, Cursor.whole, Cursor.whole, h, List.reverse_cons, List.append_assoc]
  rfl

theorem exists_behind (hc : c.whole = source) (h : c.behind = x :: b) :
    ∃ k y, c.offset = k + 1 ∧ ByteOf x y ∧ byteAt? source k = some y := by
  obtain ⟨y, hy, hbyte⟩ := exists_byteBefore hc h
  have hoff := offset_behind h
  have hpos := x.utf8Size_pos
  exact ⟨c.offset - 1, y, by omega, hy, hbyte⟩

theorem offset_back (h : c.behind = x :: b) (hx : isWide x = false) :
    c.offset = (Cursor.mk b (x :: c.ahead)).offset + 1 := by
  rw [offset_behind h, utf8Size_ascii hx, Nat.add_comm]
  rfl

theorem solidBefore?_cons (hc : c.whole = source) (h : c.behind = x :: b) :
    solidBefore? source c.offset =
      if isSpace x then solidBefore? source (Cursor.mk b (x :: c.ahead)).offset
      else some (some (c.offset - 1)) := by
  obtain ⟨k, y, hk, hy, hbyte⟩ := exists_behind hc h
  rw [hk, solidBefore?, hbyte, Option.bind_eq_bind, Option.bind_some, hy.class_eq asciiOnly_isSpace]
  split_ifs with hx
  · rw [← Nat.succ.inj ((offset_back h (asciiOnly_isSpace x hx)).symm.trans hk)]
  · rfl

theorem wordStart?_cons (hc : c.whole = source) (h : c.behind = x :: b) :
    wordStart? source c.offset =
      if isWordChar x then wordStart? source (Cursor.mk b (x :: c.ahead)).offset
      else some c.offset := by
  obtain ⟨k, y, hk, hy, hbyte⟩ := exists_behind hc h
  rw [hk, wordStart?, hbyte, Option.bind_eq_bind, Option.bind_some, hy.class_eq asciiOnly_isWordChar]
  split_ifs with hx
  · rw [← Nat.succ.inj ((offset_back h (asciiOnly_isWordChar x hx)).symm.trans hk)]
  · rfl

theorem solidBefore?_nil (hc : c.whole = source) (h : c.behind.dropWhile isSpace = []) :
    solidBefore? source c.offset = some none := by
  generalize hb : c.behind = b
  induction b generalizing c with
  | nil =>
    rw [Cursor.offset, hb]
    rfl
  | cons x b ih =>
    rw [hb] at h
    by_cases hx : isSpace x
    · rw [List.dropWhile_cons_of_pos hx] at h
      rw [solidBefore?_cons hc hb, if_pos hx]
      exact ih (whole_back hc hb) h rfl
    · rw [List.dropWhile_cons_of_neg hx] at h
      exact absurd h (by simp)

theorem exists_solidBefore? (hc : c.whole = source) (h : c.behind.dropWhile isSpace = x :: b) :
    ∃ d : Cursor, d.whole = source ∧ d.behind = x :: b ∧
      solidBefore? source c.offset = some (some (d.offset - 1)) := by
  generalize hb : c.behind = t
  induction t generalizing c with
  | nil => exact absurd h (by simp [hb])
  | cons z t ih =>
    rw [hb] at h
    rw [solidBefore?_cons hc hb]
    by_cases hz : isSpace z
    · rw [List.dropWhile_cons_of_pos hz] at h
      rw [if_pos hz]
      exact ih (whole_back hc hb) h rfl
    · rw [List.dropWhile_cons_of_neg hz] at h
      rw [if_neg hz]
      exact ⟨c, hc, hb.trans h, rfl⟩

theorem solidByte?_offset (hc : c.whole = source) :
    ∃ found, solidByte? source c.offset = some found ∧
      ∀ z, isWide z = false → (found = some z ↔ Source.lastSolid? c.behind = some z) := by
  cases h : c.behind.dropWhile isSpace with
  | nil =>
    refine ⟨none, ?_, fun z _ => ?_⟩
    · rw [solidByte?, solidBefore?_nil hc h]
      rfl
    · rw [Source.lastSolid?, h]
      rfl
  | cons x b =>
    obtain ⟨d, hd, hdb, hback⟩ := exists_solidBefore? hc h
    obtain ⟨y, hy, hbyte⟩ := exists_byteBefore hd hdb
    refine ⟨some y, ?_, fun z hz => ?_⟩
    · rw [solidByte?, hback, Option.bind_eq_bind, Option.bind_some]
      dsimp only
      rw [hbyte]
      rfl
    · rw [Source.lastSolid?, h, List.head?_cons, Option.some.injEq, Option.some.injEq]
      exact hy.eq_iff hz

theorem wordStart?_offset (hc : c.whole = source) :
    wordStart? source c.offset = some (Text.bytes (c.behind.dropWhile isWordChar)) := by
  generalize hb : c.behind = b
  induction b generalizing c with
  | nil =>
    rw [Cursor.offset, hb]
    rfl
  | cons x b ih =>
    rw [wordStart?_cons hc hb]
    by_cases hx : isWordChar x
    · rw [if_pos hx, ih (whole_back hc hb) rfl, List.dropWhile_cons_of_pos hx]
    · rw [if_neg hx, List.dropWhile_cons_of_neg hx, ← hb]
      rfl

theorem regexAllowed?_offset (hc : c.whole = source) :
    regexAllowed? source c.offset = some (regexAllowed c.behind) := by
  cases h : c.behind.dropWhile isSpace with
  | nil =>
    rw [regexAllowed?, solidBefore?_nil hc h, regexAllowed, h]
    rfl
  | cons x b =>
    obtain ⟨d, hd, hdb, hback⟩ := exists_solidBefore? hc h
    obtain ⟨y, hy, hbyte⟩ := exists_byteBefore hd hdb
    have hmarks : AsciiOnly operatorMarks.contains := asciiOnly_contains (by decide)
    rw [regexAllowed?, hback, regexAllowed, h, Option.bind_eq_bind, Option.bind_some]
    dsimp only
    rw [hbyte, Option.bind_eq_bind, Option.bind_some, hy.class_eq hmarks,
      hy.class_eq asciiOnly_isWordChar]
    by_cases hm : operatorMarks.contains x
    · rw [if_pos hm, hm, Bool.true_or]
    by_cases hx : isWordChar x
    · have hw := asciiOnly_isWordChar x hx
      have hoff : d.offset - 1 = (Cursor.mk b (x :: d.ahead)).offset := by
        rw [offset_back hdb hw, Nat.add_sub_cancel]
      have hslice : slice? source (Text.bytes (b.dropWhile isWordChar)) d.offset =
          some ((x :: b).takeWhile isWordChar).reverse := by
        have hsplit := slice?_append (b.dropWhile isWordChar).reverse
          ((x :: b).takeWhile isWordChar).reverse d.ahead
        have hbytes := congrArg Text.bytes (List.takeWhile_append_dropWhile (p := isWordChar) (l := b))
        rw [Text.bytes_append] at hbytes
        rw [← List.append_assoc, ← List.reverse_append, List.takeWhile_cons_of_pos hx, List.cons_append,
          List.takeWhile_append_dropWhile, ← hdb, ← Cursor.whole, hd, Text.bytes_reverse,
          Text.bytes_reverse, Text.bytes_cons, Nat.add_left_comm, Nat.add_comm (Text.bytes _), hbytes,
          ← offset_behind hdb] at hsplit
        rw [hsplit, List.takeWhile_cons_of_pos hx]
      have hback1 : d.offset - 1 + 1 = d.offset := by rw [hoff, ← offset_back hdb hw]
      rw [if_neg hm, if_pos hx, hback1, hoff, wordStart?_offset (whole_back hd hdb), Option.bind_eq_bind,
        Option.bind_some, hslice, hx, Bool.eq_false_iff.mpr hm, Bool.false_or, Bool.true_and]
      rfl
    · rw [if_neg hm, if_neg hx, Bool.eq_false_iff.mpr hm, Bool.eq_false_iff.mpr hx]
      rfl

end Behind

/-! ### Regular expressions -/

theorem passesWide_regex (inBrackets : Bool) :
    PassesWide source (loop source (regexTurn source) (fun _ _ => none) inBrackets) := by
  refine passesWide_loop (fun s i y hy => ?_) inBrackets
  have hne : ∀ z, isWide z = false → y ≠ z := fun z => ne_of_isWide hy
  have hslash : ¬ (y = '/' && !s) := by simp [hne '/' (by decide)]
  rw [regexTurn, if_neg (hne _ (by decide)), if_neg (hne _ (by decide)), if_neg (hne _ (by decide)),
    if_neg (hne _ (by decide)), if_neg hslash]

/-- The offset behind the flags of a regular expression with `n` characters ahead. -/
def regexStop (c : Cursor) (n : Nat) : Nat := (c.advance (n + wordEnd (c.ahead.drop n))).offset

theorem regexStop_advance (c : Cursor) (k n : Nat) :
    regexStop (c.advance k) n = regexStop c (n + k) := by
  rw [regexStop, regexStop, Cursor.advance_advance, Cursor.ahead_advance, List.drop_drop,
    Nat.add_comm n k, Nat.add_assoc]

theorem loop_regex_offset (inBrackets : Bool) (hc : c.whole = source) :
    loop source (regexTurn source) (fun _ _ => none) inBrackets c.offset =
      some ((regexEnd? inBrackets c.ahead).map (regexStop c)) := by
  have hshift : ∀ (c : Cursor) k (e : Option Nat),
      some (e.map (regexStop (c.advance k))) = some ((e.map (· + k)).map (regexStop c)) := by
    intro c k e
    rw [Option.map_map]
    exact congrArg (fun f => some (e.map f)) (funext (regexStop_advance c k))
  generalize ht : c.ahead = t
  fun_induction regexEnd? inBrackets t generalizing c with
  | case1 b x t ih =>
    rw [loop_two (passesWide_regex b) hc ht (by rw [regexTurn, if_pos rfl]),
      ih (whole_advance hc 2) (by rw [Cursor.ahead_advance, ht]; rfl), hshift]
  | case2 b t hx =>
    rw [loop_done (byteAt?_ascii hc ht (by decide))
      (by rw [regexTurn, if_neg (by decide), if_pos rfl])]
    rfl
  | case3 b t hx hn ih =>
    rw [loop_one hc ht (by decide)
        (by rw [regexTurn, if_neg (by decide), if_neg (by decide), if_pos rfl]),
      ih (whole_advance hc 1) (ahead_advance_one ht), hshift]
  | case4 b t hx hn hopen ih =>
    rw [loop_one hc ht (by decide)
        (by rw [regexTurn, if_neg (by decide), if_neg (by decide), if_neg (by decide), if_pos rfl]),
      ih (whole_advance hc 1) (ahead_advance_one ht), hshift]
  | case5 b x t hx hn hopen hclose hslash =>
    obtain ⟨rfl, hb⟩ : x = '/' ∧ b = false := by simpa using hslash
    have hflags := wordEnd?_offset (whole_advance hc 1)
    rw [offset_advance_ascii ht (by decide), Cursor.advance_advance] at hflags
    refine loop_done (byteAt?_ascii hc ht (by decide)) ?_
    rw [regexTurn, if_neg (by decide), if_neg hn, if_neg hopen, if_neg hclose, if_pos hslash, hflags]
    rfl
  | case6 b x t hx hn hopen hclose hslash ih =>
    by_cases hback : x = '\\'
    · subst hback
      obtain rfl : t = [] := eq_nil_of_not_cons fun y u => hx y u rfl
      exact loop_overrun hc ht (by rw [regexTurn, if_pos rfl])
    rw [(passesWide_regex b).step hc ht fun hw => loop_next (byteAt?_ascii hc ht hw)
      (by rw [regexTurn, if_neg hback, if_neg hn, if_neg hopen, if_neg hclose, if_neg hslash])
      (Nat.lt_succ_self _), ih (whole_advance hc 1) (ahead_advance_one ht), hshift]
  | case7 b => rw [loop_none (byteAt?_end hc ht)]; rfl

theorem regex?_offset (hc : c.whole = source) (h : c.ahead = '/' :: t) :
    regex? source c.offset = some ((regexEnd? false t).elim (c.advance 1).offset fun n =>
      (c.advance (n + wordEnd (t.drop n) + 1)).offset) := by
  have hloop := loop_regex_offset false (whole_advance hc 1)
  have hoff := offset_advance_ascii h (by decide)
  rw [ahead_advance_one h, hoff] at hloop
  rw [regex?, hloop]
  cases regexEnd? false t with
  | none => rw [Option.elim_none, hoff]; rfl
  | some n => 
    simp only [Option.map_some, Option.getD_some, Option.elim_some]
    rw [regexStop, Cursor.advance_advance, ahead_advance_one h, Nat.add_comm 1]

/-! ### Parts -/

theorem part?_offset (hc : c.whole = source) (h : c.ahead = x :: t) (hx : isWide x = false)
    (hstart : ¬ isWordStart x) :
    part? source c.offset x =
      some (c.advance ((Lexeme.readFlat c.behind x t).size + 1)).offset := by
  have hone := offset_advance_ascii h hx
  rw [part?, Lexeme.readFlat]
  by_cases hslash : x = '/'
  · subst hslash
    rw [if_pos rfl, if_pos rfl, opensComment_offset hc h]
    cases hn : commentEnd? t with
    | some n => exact comment?_offset hc h hn
    | none =>
      rw [if_neg (by simp), regexAllowed?_offset hc, Option.bind_eq_bind, Option.bind_some,
        regex?_offset hc h]
      dsimp only
      split_ifs
      · cases regexEnd? false t with
        | none => rfl
        | some n => rfl
      · exact congrArg some hone.symm
  rw [if_neg hslash, if_neg hslash]
  by_cases hq : isQuote x
  · rw [if_pos hq, if_pos hq, string?_offset hc h hq]
    cases stringEnd? x t with
    | none => exact congrArg some hone.symm
    | some n => rfl
  · rw [if_neg hq, if_neg hq, if_neg hstart]
    exact congrArg some hone.symm

end Unbundled.Source.Indexed
