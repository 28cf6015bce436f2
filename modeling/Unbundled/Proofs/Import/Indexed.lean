import Unbundled.Proofs.Import.Reading
import Unbundled.Proofs.Source.Nested

/-! # The scan by index

The imports of a text can be found from its bytes, by index (`scan?`). The readers are those of the scan,
with each byte and each slice taken under its check, and with loops whose turns have to lead on; where
any of this fails, there is no result.

`scan?_eq_some` says that it never fails, whatever the text, and finds the imports of the text. -/

namespace Unbundled.Import.Indexed

open Source Source.Indexed

section Readers

variable (source : Text)

/-- Whether a string may start at an index. -/
def quoteAt (i : Nat) : Bool := (byteAt? source i).any isQuote

/-- The specifier whose literal starts at an index, and the end of the literal, if it is closed on its
line. -/
def record? (kind : Kind) (i : Nat) : Option (Option (Import × Nat)) := do
  match ← string? source i with
  | none => some none
  | some stop =>
    let raw ← slice? source (i + 1) (stop - 1)
    some (some (⟨i, stop, raw, kind⟩, stop))

/-- The specifier of a literal, or only the step over its opening quote. -/
def recordOrQuote? (kind : Kind) (i : Nat) : Option (Option Import × Nat) :=
  (record? source kind i).map fun found =>
    found.elim (none, i + 1) fun (recorded, stop) => (some recorded, stop)

/-- What a word of a declaration that ends at `stop` leads to. -/
def clauseWord? (kind : Kind) (word : Text) (stop : Nat) :
    Option (Sequel Unit (Option Import × Nat)) := do
  if word = "from".toList then
    let next ← trivia? source stop
    if quoteAt source next then (recordOrQuote? source kind next).map .done
    else some (.next () stop)
  else some (.next () stop)

/-- What a byte of a declaration leads to. -/
def clauseByte? (kind : Kind) (i : Nat) (x : Char) : Option (Sequel Unit (Option Import × Nat)) := do
  if x = '\x7b' then
    let found ← find? source ['\x7d'] i
    some (found.elim (.done (none, size source)) fun n => .next () (i + n + 1))
  else if x = '*' || x = ',' then some (.next () (i + 1))
  else if isWordStart x then
    let stop ← wordEnd? source i
    let word ← slice? source i stop
    clauseWord? source kind word stop
  else some (.done (none, i))

/-- A turn of the loop over a declaration. -/
def clauseTurn (kind : Kind) (_ : Unit) (i : Nat) (_ : Char) :
    Option (Sequel Unit (Option Import × Nat)) := do
  let i ← trivia? source i
  match byteAt? source i with
  | none => some (.done (none, i))
  | some x => clauseByte? source kind i x

/-- A declaration up to the word `from` with a literal, or up to something that no declaration holds. -/
def clause? (kind : Kind) (i : Nat) : Option (Option Import × Nat) :=
  loop source (clauseTurn source kind) (fun _ i => (none, i)) () i

/-- The argument of `import(…)`, from the index after the parenthesis. -/
def argument? (i : Nat) : Option (Option Import × Nat) := do
  let i ← trivia? source i
  if quoteAt source i then
    match ← string? source i with
    | none => some (none, i)
    | some stop =>
      let close := byteAt? source (← trivia? source stop)
      if close = some ')' ∨ close = some ',' then
        (record? source .dynamic i).map fun found => (found.map Prod.fst, stop)
      else some (none, stop)
  else some (none, i)

/-- What follows the word `import`. -/
def afterImport? (i : Nat) : Option (Option Import × Nat) := do
  let i ← trivia? source i
  if quoteAt source i then recordOrQuote? source .static i
  else if byteAt? source i = some '(' then argument? source (i + 1)
  else if byteAt? source i = some '.' then some (none, i + 1)
  else clause? source .static i

/-- What follows the word `export`. -/
def afterExport? (i : Nat) : Option (Option Import × Nat) := do
  let i ← trivia? source i
  if byteAt? source i = some '*' ∨ byteAt? source i = some '\x7b' then clause? source .reexport i
  else some (none, i)

/-- What follows a word of the script. -/
def afterWord? (word : Text) (i : Nat) : Option (Option Import × Nat) :=
  if word = "import".toList then afterImport? source i
  else if word = "export".toList then afterExport? source i
  else some (none, i)

/-- A turn of the scan: the imports found so far, and the next place. -/
def scanTurn (found : List Import) (i : Nat) (x : Char) :
    Option (Sequel (List Import) (List Import)) :=
  if x = backtick then (template? source (i + 1)).map (.next found)
  else if isWordStart x then do
    let stop ← wordEnd? source i
    let word ← slice? source i stop
    if (← solidByte? source i) = some '.' then some (.next found stop)
    else (afterWord? source word stop).map fun r => .next (found ++ r.1.toList) r.2
  else (part? source i x).map (.next found)

/-- The imports of a text, by index. -/
def scan? : Option (List Import) := loop source (scanTurn source) (fun found _ => found) [] 0

end Readers

/-! ### Readers lead on -/

section Onward

variable {source : Text} {kind : Kind} {i j : Nat} {r : Option Import × Nat}

theorem lt_of_record? {found : Import × Nat} (h : record? source kind i = some (some found)) :
    i < found.2 := by
  unfold record? at h
  obtain ⟨stop, hs, hr⟩ := Option.bind_eq_some_iff.mp h
  cases stop with
  | none => cases hr
  | some stop =>
    obtain ⟨raw, -, he⟩ := Option.bind_eq_some_iff.mp hr
    cases he
    exact lt_of_string? hs

theorem lt_of_recordOrQuote? (h : recordOrQuote? source kind i = some r) : i < r.2 := by
  obtain ⟨found, hf, rfl⟩ := Option.map_eq_some_iff.mp h
  cases found with
  | none => exact Nat.lt_succ_self i
  | some found => exact lt_of_record? hf

theorem le_of_clauseByte? {x : Char} (hx : byteAt? source i = some x)
    (h : clauseByte? source kind i x = some (.done r)) : i ≤ r.2 := by
  unfold clauseByte? at h
  split_ifs at h
  · obtain ⟨found, -, he⟩ := Option.bind_eq_some_iff.mp h
    cases found with
    | none =>
      cases he
      exact Nat.le_of_lt (lt_size_of_byteAt? hx)
    | some n => cases he
  · cases h
  · obtain ⟨stop, hstop, h⟩ := Option.bind_eq_some_iff.mp h
    obtain ⟨word, -, h⟩ := Option.bind_eq_some_iff.mp h
    unfold clauseWord? at h
    split_ifs at h
    · obtain ⟨next, hnext, h⟩ := Option.bind_eq_some_iff.mp h
      split_ifs at h
      · obtain ⟨r', hr, he⟩ := Option.map_eq_some_iff.mp h
        cases he
        have := le_of_wordEnd? hstop
        have := le_of_trivia? hnext
        have := lt_of_recordOrQuote? hr
        omega
      · cases h
    · cases h
  · cases h
    exact Nat.le_refl i

theorem le_of_clause? (h : clause? source kind i = some r) : i ≤ r.2 := by
  refine loop_induction (R := fun i r => i ≤ r.2) (fun _ _ _ => Nat.le_trans) ?_ (fun _ => Nat.le_refl) h
  intro _ i x r _ ht
  obtain ⟨k, hk, ht⟩ := Option.bind_eq_some_iff.mp ht
  refine Nat.le_trans (le_of_trivia? hk) ?_
  split at ht
  · cases ht
    exact Nat.le_refl k
  · exact le_of_clauseByte? (by assumption) ht

theorem le_of_argument? (h : argument? source i = some r) : i ≤ r.2 := by
  obtain ⟨k, hk, h⟩ := Option.bind_eq_some_iff.mp h
  refine Nat.le_trans (le_of_trivia? hk) ?_
  split_ifs at h
  · obtain ⟨found, hs, h⟩ := Option.bind_eq_some_iff.mp h
    cases found with
    | none =>
      cases h
      exact Nat.le_refl k
    | some stop =>
      obtain ⟨after, -, h⟩ := Option.bind_eq_some_iff.mp h
      dsimp only at h
      split_ifs at h
      · obtain ⟨found, -, he⟩ := Option.map_eq_some_iff.mp h
        cases he
        exact Nat.le_of_lt (lt_of_string? hs)
      · cases h
        exact Nat.le_of_lt (lt_of_string? hs)
  · cases h
    exact Nat.le_refl k

theorem le_of_afterImport? (h : afterImport? source i = some r) : i ≤ r.2 := by
  obtain ⟨k, hk, h⟩ := Option.bind_eq_some_iff.mp h
  refine Nat.le_trans (le_of_trivia? hk) ?_
  split_ifs at h
  · exact Nat.le_of_lt (lt_of_recordOrQuote? h)
  · exact Nat.le_of_lt (le_of_argument? h)
  · cases h
    exact Nat.le_succ k
  · exact le_of_clause? h

theorem le_of_afterExport? (h : afterExport? source i = some r) : i ≤ r.2 := by
  obtain ⟨k, hk, h⟩ := Option.bind_eq_some_iff.mp h
  refine Nat.le_trans (le_of_trivia? hk) ?_
  split_ifs at h
  · exact le_of_clause? h
  · cases h
    exact Nat.le_refl k

end Onward

/-! ### At the offset of a place -/

section Places

variable {source t : Text} {c : Cursor} {kind : Kind} {x q : Char} {n : Nat}

/-- What a reader of the scan gives, by index. -/
def indexed (r : Option Import × Cursor) : Option Import × Nat := (r.1, r.2.offset)

theorem quoteAt_offset (hc : c.whole = source) : quoteAt source c.offset = atQuote c := by
  rw [quoteAt, atQuote]
  cases h : c.ahead with
  | nil => rw [byteAt?_end hc h]; rfl
  | cons x t =>
    obtain ⟨y, hy, hb⟩ := exists_byteAt? hc h
    rw [hb]
    exact hy.class_eq asciiOnly_isQuote

theorem skipTrivia_offset (hc : c.whole = source) :
    trivia? source c.offset = some (skipTrivia c).offset := trivia?_offset hc

theorem whole_skipTrivia (hc : c.whole = source) : (skipTrivia c).whole = source :=
  whole_advance hc _

theorem literal?_of_cons (h : c.ahead = q :: t) :
    literal? kind c = (stringEnd? q t).map fun n =>
      (⟨c.offset, c.offset + Text.bytes (q :: t.take n), (t.take n).dropLast, kind⟩,
        c.advance (n + 1)) := by
  rw [literal?, h]

theorem string?_literal (kind : Kind) (hc : c.whole = source) (hq : atQuote c) :
    string? source c.offset = some ((literal? kind c).map fun found => found.2.offset) := by
  obtain ⟨q, t, h, hq⟩ := exists_quote hq
  rw [string?_offset hc h hq, literal?_of_cons h, Option.map_map]
  rfl

theorem record?_offset (hc : c.whole = source) (hq : atQuote c) :
    record? source kind c.offset = some ((literal? kind c).map fun found => (found.1, found.2.offset)) := by
  obtain ⟨q, t, h, hq⟩ := exists_quote hq
  have hw := asciiOnly_isQuote q hq
  rw [record?, string?_offset hc h hq, literal?_of_cons h, Option.bind_eq_bind, Option.bind_some]
  cases hn : stringEnd? q t with
  | none => rfl
  | some n =>
    obtain ⟨raw, rest, -, rfl, rfl⟩ := append_of_stringEnd? hn
    have hclose : ((c.advance 1).advance raw.length).ahead = q :: rest := by
      rw [Cursor.ahead_advance, ahead_advance_one h, List.drop_left]
    have hstop : (c.advance (raw.length + 1 + 1)).offset =
        ((c.advance 1).advance raw.length).offset + 1 := by
      rw [← offset_advance_ascii hclose hw, Cursor.advance_advance, Cursor.advance_advance,
        Nat.add_comm 1]
    have hraw := slice?_advance (whole_advance hc 1) raw.length
    rw [ahead_advance_one h, List.take_left, offset_advance_ascii h hw] at hraw
    have hbytes : (c.advance (raw.length + 1 + 1)).offset =
        c.offset + Text.bytes (q :: (raw ++ q :: rest).take (raw.length + 1)) := by
      rw [Cursor.offset_advance, h, List.take_succ_cons]
    have hinside : ((raw ++ q :: rest).take (raw.length + 1)).dropLast = raw := by
      rw [List.take_length_add_append]
      exact List.dropLast_concat
    simp only [Option.map_some]
    rw [hinside, ← hbytes, hstop, Nat.add_sub_cancel, hraw]
    rfl

theorem recordOrQuote?_offset (hc : c.whole = source) (hq : atQuote c) :
    recordOrQuote? source kind c.offset = some (indexed (literalOrQuote kind c)) := by
  rw [recordOrQuote?, record?_offset hc hq, literalOrQuote]
  cases literal? kind c with
  | none =>
    obtain ⟨q, t, h, hq⟩ := exists_quote hq
    rw [indexed, offset_advance_ascii h (asciiOnly_isQuote q hq)]
    rfl
  | some found => rfl

theorem findIdx?_brace (t : Text) :
    t.findIdx? (· = '\x7d') = (Text.cut? ['\x7d'] t).map fun parts => parts.1.length := by
  induction t with
  | nil => rfl
  | cons x t ih =>
    rw [List.findIdx?_cons, Text.cut?_cons, ih]
    by_cases hx : x = '\x7d'
    · rw [if_pos (by simp [hx]), if_pos (by simp [hx])]
      rfl
    · rw [if_neg (by simp [hx]), if_neg (by simp [Ne.symm hx]), Option.map_map, Option.map_map]
      rfl

theorem clauseByte?_braces (kind : Kind) (hc : c.whole = source) (h : c.ahead = '\x7b' :: t) :
    clauseByte? source kind c.offset '\x7b' =
      some ((t.findIdx? (· = '\x7d')).elim (.done (none, c.finish.offset)) fun n =>
        .next () (c.advance (n + 2)).offset) := by
  have hcut : Text.cut? ['\x7d'] c.ahead =
      (Text.cut? ['\x7d'] t).map fun parts => ('\x7b' :: parts.1, parts.2) := by
    rw [h, Text.cut?_cons, if_neg (by simp)]
  rw [clauseByte?, if_pos rfl, find?_offset hc (by decide) (by decide), hcut, findIdx?_brace,
    offset_finish hc]
  cases ht : Text.cut? ['\x7d'] t with
  | none => rfl
  | some parts =>
    rw [ht] at hcut
    exact congrArg (fun k => some (Sequel.next () k)) (offset_advance_cut (by decide) hcut).symm

theorem clauseByte?_word (kind : Kind) (hc : c.whole = source) (h : c.ahead = x :: t) (hx : isWordStart x) :
    clauseByte? source kind c.offset x =
      clauseWord? source kind (x :: t.take (wordEnd t)) (c.advance (wordEnd t + 1)).offset := by
  have hbrace : x ≠ '\x7b' := by rintro rfl; exact absurd hx (by decide)
  have hmark : ¬ (x = '*' || x = ',') := by
    intro hm
    rcases (Bool.or_eq_true _ _).mp hm with hm | hm
    all_goals
      obtain rfl := of_decide_eq_true hm
      exact absurd hx (by decide)
  have hword : wordEnd c.ahead = wordEnd t + 1 := by
    rw [h, wordEnd, List.takeWhile_cons_of_pos (isWordChar_of_isWordStart hx)]
    rfl
  have hslice := slice?_advance hc (wordEnd t + 1)
  rw [h, List.take_succ_cons] at hslice
  rw [clauseByte?, if_neg hbrace, if_neg hmark, if_pos hx, wordEnd?_offset hc, hword, Option.bind_eq_bind,
    Option.bind_some, hslice]
  rfl

theorem clauseByte?_mark {y : Char} (hy : ByteOf x y) (h : c.ahead = x :: t)
    (hx : (x = '*' || x = ',') = true) :
    clauseByte? source kind c.offset y = some (.next () (c.advance 1).offset) := by
  obtain ⟨hw, hbrace⟩ : isWide x = false ∧ x ≠ '\x7b' := by
    rcases (Bool.or_eq_true _ _).mp hx with hm | hm
    all_goals
      obtain rfl := of_decide_eq_true hm
      decide
  rw [hy.ascii hw, clauseByte?, if_neg hbrace, if_pos hx, offset_advance_ascii h hw]

theorem clauseByte?_other {y : Char} (hy : ByteOf x y) (hbrace : x ≠ '\x7b')
    (hmark : ¬ (x = '*' || x = ',') = true) (hstart : ¬ isWordStart x) (i : Nat) :
    clauseByte? source kind i y = some (.done (none, i)) := by
  have hy1 : y ≠ '\x7b' := (hy.eq_iff (by decide)).not.mpr hbrace
  have hy2 : ¬ (y = '*' || y = ',') = true := by
    rw [Bool.or_eq_true, decide_eq_true_eq, decide_eq_true_eq] at hmark ⊢
    rwa [hy.eq_iff (by decide), hy.eq_iff (by decide)]
  have hy3 : ¬ isWordStart y := by rwa [hy.class_eq asciiOnly_isWordStart]
  rw [clauseByte?, if_neg hy1, if_neg hy2, if_neg hy3]

theorem clauseWord?_offset (hc : c.whole = source) (word : Text) :
    clauseWord? source kind word c.offset =
      some (if word = "from".toList && atQuote (skipTrivia c) then
        .done (indexed (literalOrQuote kind (skipTrivia c))) else .next () c.offset) := by
  have hd := whole_skipTrivia hc
  rw [clauseWord?, skipTrivia_offset hc, Option.bind_eq_bind, Option.bind_some, quoteAt_offset hd]
  by_cases hfrom : word = "from".toList
  · rw [if_pos hfrom, decide_eq_true hfrom, Bool.true_and]
    split_ifs with hq
    · rw [recordOrQuote?_offset hd hq]
      rfl
    · rfl
  · rw [if_neg hfrom, decide_eq_false hfrom, Bool.false_and, if_neg (by decide)]

/-- A turn of the loop over a declaration starts at its next token. -/
theorem clauseTurn_offset (kind : Kind) (hc : c.whole = source) (h : (skipTrivia c).ahead = x :: t) :
    ∃ y, ByteOf x y ∧ ∀ z,
      clauseTurn source kind () c.offset z = clauseByte? source kind (skipTrivia c).offset y := by
  obtain ⟨y, hy, hb⟩ := exists_byteAt? (whole_skipTrivia hc) h
  refine ⟨y, hy, fun z => ?_⟩
  rw [clauseTurn, skipTrivia_offset hc, Option.bind_eq_bind, Option.bind_some, hb]

theorem exists_byte_of_skipTrivia (hc : c.whole = source) (h : (skipTrivia c).ahead = x :: t) :
    ∃ z, byteAt? source c.offset = some z := by
  cases hahead : c.ahead with
  | nil => exact absurd h (by rw [skipTrivia, Cursor.ahead_advance, hahead, List.drop_nil]; simp)
  | cons z u =>
    obtain ⟨y, -, hb⟩ := exists_byteAt? hc hahead
    exact ⟨y, hb⟩

theorem clause?_done {r : Option Import × Nat} (hc : c.whole = source)
    (h : (skipTrivia c).ahead = x :: t)
    (hr : ∀ y, ByteOf x y → clauseByte? source kind (skipTrivia c).offset y = some (.done r)) :
    clause? source kind c.offset = some r := by
  obtain ⟨z, hz⟩ := exists_byte_of_skipTrivia hc h
  obtain ⟨y, hy, hturn⟩ := clauseTurn_offset kind hc h
  exact loop_done hz ((hturn z).trans (hr y hy))

theorem clause?_next (hc : c.whole = source) (h : (skipTrivia c).ahead = x :: t)
    (hn : ∀ y, ByteOf x y → clauseByte? source kind (skipTrivia c).offset y =
      some (.next () ((skipTrivia c).advance (n + 1)).offset)) :
    clause? source kind c.offset = clause? source kind ((skipTrivia c).advance (n + 1)).offset := by
  obtain ⟨z, hz⟩ := exists_byte_of_skipTrivia hc h
  obtain ⟨y, hy, hturn⟩ := clauseTurn_offset kind hc h
  have hlt : (skipTrivia c).offset < ((skipTrivia c).advance (n + 1)).offset :=
    Cursor.offset_lt_advance (by rw [h]; simp) (Nat.succ_pos n)
  exact loop_next hz ((hturn z).trans (hn y hy))
    (Nat.lt_of_le_of_lt (onward_skipTrivia c).offset_le hlt)

/-- Nothing but blanks and comments up to the end. -/
theorem clause?_nil (hc : c.whole = source) (h : (skipTrivia c).ahead = []) :
    clause? source kind c.offset = some (none, (skipTrivia c).offset) := by
  cases hahead : c.ahead with
  | nil =>
    have hhere : skipTrivia c = c := Cursor.advance_of_nil hahead _
    rw [clause?, loop_none (byteAt?_end hc hahead), hhere]
  | cons x t =>
    obtain ⟨y, -, hb⟩ := exists_byteAt? hc hahead
    refine loop_done hb ?_
    rw [clauseTurn, skipTrivia_offset hc, Option.bind_eq_bind, Option.bind_some,
      byteAt?_end (whole_skipTrivia hc) h]

theorem clause?_offset (hc : c.whole = source) :
    clause? source kind c.offset = some (indexed (clause kind c)) := by
  generalize hl : c.ahead.length = l
  induction l using Nat.strongRecOn generalizing c with
  | ind l ih =>
    have hd := whole_skipTrivia hc
    have hle := (onward_skipTrivia c).length_le
    cases h : (skipTrivia c).ahead with
    | nil =>
      rw [clause?_nil hc h, clause_nil h]
      rfl
    | cons x t =>
      -- what is left behind the next token
      have hgo : ∀ n, clause? source kind ((skipTrivia c).advance (n + 1)).offset =
          some (indexed (clause kind ((skipTrivia c).advance (n + 1)))) := by
        intro n
        exact ih _ (hl ▸ Nat.lt_of_lt_of_le (Cursor.length_advance_lt h n) hle) (whole_advance hd _) rfl
      rw [clause_cons h]
      by_cases hbrace : x = '\x7b'
      · subst hbrace
        have hbyte := clauseByte?_braces kind hd h
        rw [if_pos rfl]
        cases hn : t.findIdx? (· = '\x7d') with
        | none =>
          rw [hn] at hbyte
          exact clause?_done hc h fun y hy => hy.ascii (by decide) ▸ hbyte
        | some n =>
          rw [hn] at hbyte
          rw [clause?_next hc h fun y hy => hy.ascii (by decide) ▸ hbyte, hgo]
      rw [if_neg hbrace]
      by_cases hmark : (x = '*' || x = ',') = true
      · rw [if_pos hmark, clause?_next (n := 0) hc h fun y hy => clauseByte?_mark hy h hmark, hgo]
      rw [if_neg hmark]
      by_cases hstart : isWordStart x
      · have hx := asciiOnly_isWordStart x hstart
        have hbyte := clauseByte?_word kind hd h hstart
        rw [clauseWord?_offset (whole_advance hd (wordEnd t + 1))] at hbyte
        rw [if_pos hstart]
        split_ifs at hbyte ⊢ with hfrom
        · exact clause?_done hc h fun y hy => hy.ascii hx ▸ hbyte
        · rw [clause?_next hc h fun y hy => hy.ascii hx ▸ hbyte, hgo]
      · rw [if_neg hstart]
        exact clause?_done hc h fun y hy => clauseByte?_other hy hbrace hmark hstart _

theorem argument?_offset (hc : c.whole = source) :
    argument? source c.offset = some (indexed (dynamicArgument c)) := by
  have hd := whole_skipTrivia hc
  rw [argument?, skipTrivia_offset hc, dynamicArgument, Option.bind_eq_bind, Option.bind_some,
    quoteAt_offset hd]
  dsimp only
  by_cases hq : atQuote (skipTrivia c)
  · rw [if_pos hq, if_pos hq, string?_literal .dynamic hd hq, record?_offset hd hq]
    cases hl : literal? .dynamic (skipTrivia c) with
    | none => rfl
    | some found =>
      obtain ⟨i, d⟩ := found
      have hw : d.whole = source := (onward_literal? hl).whole_eq.trans hd
      have hbyte : ∀ z, isWide z = false →
          (byteAt? source (skipTrivia d).offset = some z ↔ (skipTrivia d).ahead.head? = some z) :=
        fun z => byteAt?_eq_some_iff (whole_skipTrivia hw)
      simp only [Option.map_some, Option.bind_eq_bind, Option.bind_some, skipTrivia_offset hw,
        hbyte ')' (by decide), hbyte ',' (by decide)]
      split_ifs <;> rfl
  · rw [if_neg hq, if_neg hq]
    rfl

theorem afterImport?_offset (hc : c.whole = source) :
    afterImport? source c.offset = some (indexed (afterImport c)) := by
  have hd := whole_skipTrivia hc
  have hbyte : ∀ z, isWide z = false →
      (byteAt? source (skipTrivia c).offset = some z ↔ (skipTrivia c).ahead.head? = some z) :=
    fun z => byteAt?_eq_some_iff hd
  rw [afterImport?, skipTrivia_offset hc, afterImport, Option.bind_eq_bind, Option.bind_some,
    quoteAt_offset hd]
  simp only [hbyte '(' (by decide), hbyte '.' (by decide)]
  split_ifs with hq hparen hpoint
  · exact recordOrQuote?_offset hd hq
  · obtain ⟨t, ht⟩ := exists_of_head? hparen
    rw [← offset_advance_ascii ht (by decide)]
    exact argument?_offset (whole_advance hd 1)
  · obtain ⟨t, ht⟩ := exists_of_head? hpoint
    rw [indexed, offset_advance_ascii ht (by decide)]
  · exact clause?_offset hd

theorem afterExport?_offset (hc : c.whole = source) :
    afterExport? source c.offset = some (indexed (afterExport c)) := by
  have hd := whole_skipTrivia hc
  have hbyte : ∀ z, isWide z = false →
      (byteAt? source (skipTrivia c).offset = some z ↔ (skipTrivia c).ahead.head? = some z) :=
    fun z => byteAt?_eq_some_iff hd
  rw [afterExport?, skipTrivia_offset hc, afterExport, Option.bind_eq_bind, Option.bind_some]
  simp only [hbyte '*' (by decide), hbyte '\x7b' (by decide)]
  split_ifs with hopen
  · exact clause?_offset hd
  · rfl

theorem afterWord?_offset (hc : c.whole = source) (word : Text) :
    afterWord? source word c.offset = some (indexed (afterWord word c)) := by
  rw [afterWord?, afterWord]
  split_ifs
  · exact afterImport?_offset hc
  · exact afterExport?_offset hc
  · rfl

end Places

/-! ### The scan -/

section Scan

variable {source t : Text} {c : Cursor} {x : Char}

theorem passesWide_scan (found : List Import) :
    PassesWide source (loop source (scanTurn source) (fun found _ => found) found) := by
  refine passesWide_loop (fun found i y hy => ?_) found
  have hne : ∀ z, isWide z = false → y ≠ z := fun z => ne_of_isWide hy
  rw [scanTurn, if_neg (hne _ (by decide)), asciiOnly_isWordStart.eq_false hy, if_neg (by decide), part?,
    if_neg (hne _ (by decide)), asciiOnly_isQuote.eq_false hy, if_neg (by decide)]
  rfl

/-- A turn of the scan at an ASCII character is its step there. -/
theorem scanTurn_offset (hc : c.whole = source) (h : c.ahead = x :: t) (hx : isWide x = false)
    (found : List Import) :
    scanTurn source found c.offset x =
      some (.next (found ++ (step c x t).1.toList) (step c x t).2.offset) := by
  rw [scanTurn, step]
  by_cases htick : x = backtick
  · subst htick
    rw [if_pos rfl, template?_offset hc h, if_neg]
    · simp
    · rintro ⟨hk, -⟩
      exact absurd hk (by rw [Lexeme.read, if_pos rfl]; simp)
  rw [if_neg htick]
  by_cases hstart : isWordStart x
  · have hword : wordEnd c.ahead = wordEnd t + 1 := by
      rw [h, wordEnd, List.takeWhile_cons_of_pos (isWordChar_of_isWordStart hstart)]
      rfl
    have hslice := slice?_advance hc (wordEnd t + 1)
    rw [h, List.take_succ_cons] at hslice
    obtain ⟨byte, hbyte, hdot⟩ := solidByte?_offset hc
    rw [if_pos hstart, wordEnd?_offset hc, hword, Option.bind_eq_bind, Option.bind_some, hslice,
      Option.bind_eq_bind, Option.bind_some, hbyte, Option.bind_eq_bind, Option.bind_some,
      Lexeme.read_word hstart]
    simp only [hdot '.' (by decide), afterWord?_offset (whole_advance hc (wordEnd t + 1))]
    by_cases hmember : lastSolid? c.behind = some '.'
    · rw [if_pos hmember, if_neg (by simp [hmember])]
      simp
    · rw [if_neg hmember, if_pos ⟨trivial, hmember⟩]
      rfl
  · rw [if_neg hstart, part?_offset hc h hx hstart, if_neg]
    · simp [Lexeme.read, htick]
    · rintro ⟨hk, -⟩
      rcases Lexeme.read_cases c.behind x t with hread | ⟨hword, -⟩ | hread
      · rw [hread] at hk
        exact absurd hk (by decide)
      · exact hstart hword
      · exact hread (by simp [hk])

theorem onward_step (h : c.ahead = x :: t) : c.offset < (step c x t).2.offset ∧ c.Onward (step c x t).2 := by
  have hlt : ∀ n, c.offset < (c.advance (n + 1)).offset :=
    fun n => Cursor.offset_lt_advance (by rw [h]; simp) (Nat.succ_pos n)
  unfold step
  dsimp only
  split_ifs
  · have hafter := onward_afterWord (x :: t.take (Lexeme.read c.behind x t).size)
      (c.advance ((Lexeme.read c.behind x t).size + 1))
    exact ⟨Nat.lt_of_lt_of_le (hlt _) hafter.offset_le, (Cursor.onward_advance _ c).trans hafter⟩
  · exact ⟨hlt _, Cursor.onward_advance _ c⟩

theorem loop_scan_offset (hc : c.whole = source) (found : List Import) :
    loop source (scanTurn source) (fun found _ => found) found c.offset =
      some (found ++ scanFrom c) := by
  generalize hl : c.ahead.length = l
  induction l using Nat.strongRecOn generalizing c found with
  | ind l ih =>
    cases h : c.ahead with
    | nil => rw [loop_none (byteAt?_end hc h), scanFrom_nil h, List.append_nil]
    | cons x t =>
      obtain ⟨hlt, honward⟩ := onward_step h
      have hnext := ih _ (hl ▸ length_step_lt h) (honward.whole_eq.trans hc)
        (found ++ (step c x t).1.toList) rfl
      rw [scanFrom_cons h, ← List.append_assoc, ← hnext]
      cases hx : isWide x with
      | false => exact loop_next (byteAt?_ascii hc h hx) (scanTurn_offset hc h hx found) hlt
      | true =>
        -- the scan passes the character, the loop one byte of it after the other
        have hstep : step c x t = (none, c.advance 1) := by
          rw [step, Lexeme.read_plain (isPlain_of_isWide hx), if_neg (by simp [Lexeme.single])]
          rfl
        rw [(passesWide_scan found).step hc h fun hx' => absurd (hx'.symm.trans hx) (by decide), hstep,
          Option.toList_none, List.append_nil]

/-- Each reader ends at or after the place where it has started, wherever this is. A template literal is
read from a place in its text on, and the bytes have to reach that far. -/
structure LeadsOn (source : Text) : Prop where
  word : ∀ i, ∀ j ∈ wordEnd? source i, i ≤ j
  comment : ∀ i, ∀ j ∈ comment? source i, i < j
  trivia : ∀ i, ∀ j ∈ trivia? source i, i ≤ j
  string : ∀ i j, some j ∈ string? source i → i < j
  regex : ∀ i, ∀ j ∈ regex? source i, i < j
  template : ∀ i ≤ size source, ∀ j ∈ template? source i, i ≤ j
  expression : ∀ depth, ∀ i ≤ size source, ∀ j ∈ expression? source depth i, i ≤ j
  record : ∀ kind i found, some found ∈ record? source kind i → i < found.2
  clause : ∀ kind i, ∀ r ∈ clause? source kind i, i ≤ r.2
  afterImport : ∀ i, ∀ r ∈ afterImport? source i, i ≤ r.2
  afterExport : ∀ i, ∀ r ∈ afterExport? source i, i ≤ r.2

theorem leadsOn (source : Text) : LeadsOn source where
  word _ _ := le_of_wordEnd?
  comment _ _ := lt_of_comment?
  trivia _ _ := le_of_trivia?
  string _ _ := lt_of_string?
  regex _ _ := lt_of_regex?
  template i hi j hj := by
    have := le_of_template? hj
    omega
  expression depth i hi j hj := by
    have := le_of_expression? hj
    omega
  record _ _ _ := lt_of_record?
  clause _ _ _ := le_of_clause?
  afterImport _ _ := le_of_afterImport?
  afterExport _ _ := le_of_afterExport?

/-- **The scan by index never fails.** Whatever the text, no index lies out of range, every slice lies
between boundaries of characters, every turn of a loop leads on, and the imports are those of the scan;
and no reader leads back. -/
theorem scan?_eq_some (source : Text) : scan? source = some (scan source) ∧ LeadsOn source :=
  ⟨loop_scan_offset (c := Cursor.start source) rfl [], leadsOn source⟩

end Scan

end Unbundled.Import.Indexed
