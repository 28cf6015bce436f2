import Unbundled.Proofs.Component.Appended
import Unbundled.Proofs.Component.Attributes

/-! # Components by index

The blocks of a component can be read from its bytes, by index. The readers are those of the file, with
each byte and each slice taken under its check, with a count that fails below zero, and with loops whose
turns have to lead on; where any of this fails, there is no result (`none`).

At the offset of a place, none of these readers fails, and each finds what the reader of the text finds
there: the lemmas `…_offset` say so. -/

namespace Unbundled.Component.Indexed

open Source Source.Indexed

/-! ### Readers -/

section Readers

variable (source : Text)

/-- A turn of the search for the end of a tag: the quote that is open, and the byte. -/
def angleTurn (quote : Option Char) (i : Nat) (x : Char) : Option (Sequel (Option Char) (Option Nat)) :=
  match quote with
  | some q => some (.next (if x = q then none else some q) (i + 1))
  | none => some (if x = '>' then .done (some i) else .next (if isQuote x then some x else none) (i + 1))

/-- The index of the `>` that ends an opening tag. -/
def angle? (i : Nat) : Option (Option Nat) :=
  if i ≤ size source then loop source angleTurn (fun _ _ => none) none i else none

/-- The index of the first opening mark between two indices, if it is the mark of a template. -/
def nestedOpen? (i j : Nat) : Option (Option Nat) := do
  let found ← findIn? source templateOpen i j
  some ((found.map (i + ·)).filter fun k =>
    (byteAt? source (k + templateOpen.length)).any isTagBoundary)

/-- A turn of the search for the end of a template: the number of inner templates that are open, and the
index. -/
def templateTurn (depth i : Nat) : Option (Sequel Nat (Option (Nat × Nat))) := do
  match ← find? source templateClose i with
  | none => some (.done none)
  | some n =>
    let close := i + n
    match ← nestedOpen? source i close with
    | some k =>
      match ← angle? source (k + templateOpen.length) with
      | none => some (.done none)
      | some stop =>
        let last ← byteBefore? source stop
        some (.next (if last = '/' then depth else depth + 1) (stop + 1))
    | none =>
      if depth = 0 then some (.done (some (close, close + templateClose.length)))
      else
        let depth ← depth.ppred
        some (.next depth (close + templateClose.length))

/-- The end of the content of a template and the end of its closing tag. -/
def templateEnd? (i : Nat) : Option (Option (Nat × Nat)) := sliceLoop source (templateTurn source) 0 i

/-- The end of the content of a block and the end of its closing tag. -/
def contentEnd? (tag : Text) (i : Nat) : Option (Option (Nat × Nat)) :=
  if tag = "template".toList then templateEnd? source i
  else do
    let close := "</".toList ++ tag ++ ['>']
    let found ← find? source (units close) i
    some (found.map fun n => (i + n, i + n + size close))

/-- The same of a block whose tag ends in the byte `last` and `>`. With a slash, it has no content. -/
def bodyEnd? (tag : Text) (last : Char) (i : Nat) : Option (Option (Nat × Nat)) :=
  if last = '/' then some (some (i, i)) else contentEnd? source tag i

/-- The content of such a block, and the end of its closing tag. -/
def body? (tag : Text) (last : Char) (i : Nat) : Option (Option (Text × Nat)) := do
  match ← bodyEnd? source tag last i with
  | none => some none
  | some (close, next) =>
    let content ← slice? source i close
    some (some (content, next))

/-- The block of the mark at `start` whose name ends at `nameEnd`, and the index after it. -/
def block? (tag : Text) (start nameEnd : Nat) : Option (Except Cause (Block × Nat)) := do
  match ← angle? source nameEnd with
  | none => some (.error (.unclosed tag start))
  | some stop =>
    let inside ← slice? source nameEnd stop
    let last ← byteBefore? source stop
    match ← body? source tag last (stop + 1) with
    | none => some (.error (.unclosed tag start))
    | some (content, next) => some (.ok (⟨content, attrsOf inside, stop + 1⟩, next))

/-- The blocks with one more. -/
def add? (d : Descriptor) (tag : Text) (block : Block) : Option (Except Cause Descriptor) :=
  if tag = "template".toList then
    some (if d.template.isSome then .error (.duplicate tag) else .ok { d with template := some block })
  else if tag = "script".toList then do
    if (← attributes? block.attrs).any fun (key, _) => key == "setup".toList then
      some (.error .scriptSetup)
    else some (if d.script.isSome then .error (.duplicate tag) else .ok { d with script := some block })
  else some (.ok (if tag = "style".toList then { d with styles := d.styles ++ [block] } else d))

/-- What the mark of a comment at `start` leads to, after the blocks found before. -/
def commentTurn (d : Descriptor) (start : Nat) :
    Option (Sequel Descriptor (Except Cause Descriptor)) := do
  match ← find? source "-->".toList start with
  | none => some (.done (.error (.unclosed "!--".toList start)))
  | some n => some (.next d (start + n + 3))

/-- What another mark at `start` leads to: a block, or the text after it if no name follows. -/
def blockTurn (d : Descriptor) (start : Nat) :
    Option (Sequel Descriptor (Except Cause Descriptor)) := do
  let nameEnd ← spanEnd? source isTagChar (start + 1)
  let tag ← slice? source (start + 1) nameEnd
  if tag.isEmpty then some (.next d (start + 1))
  else
    match ← block? source tag start nameEnd with
    | .error cause => some (.done (.error cause))
    | .ok (block, next) =>
      match ← add? d tag block with
      | .error cause => some (.done (.error cause))
      | .ok d => some (.next d next)

/-- A turn of the search for blocks: those found so far, and the index. -/
def parseTurn (d : Descriptor) (i : Nat) : Option (Sequel Descriptor (Except Cause Descriptor)) := do
  match ← find? source ['<'] i with
  | none => some (.done (.ok d))
  | some n =>
    if ← startsWith? source "<!--".toList (i + n) then commentTurn source d (i + n)
    else blockTurn source d (i + n)

/-- The blocks of a file. -/
def parse? : Option (Except Cause Descriptor) :=
  (sliceLoop source (parseTurn source) ⟨none, none, []⟩ 0).map fun r =>
    r.bind fun d => if d.template.isNone && d.script.isNone then .error .noBlock else .ok d

end Readers

/-! ### Tags -/

section Places

variable {b inside s source t tag u : Text} {c : Cursor} {closed : Bool} {n : Nat} {quote : Option Char}
  {x : Char}

theorem asciiOnly_isTagChar : AsciiOnly isTagChar :=
  fun _ h => decide_eq_false (Nat.not_le.mpr (toNat_lt_of_isTagChar h))

theorem asciiOnly_isTagBoundary : AsciiOnly isTagBoundary := by
  intro z h
  simp only [isTagBoundary, Bool.or_eq_true, beq_iff_eq] at h
  rcases h with ((((rfl | rfl) | rfl) | rfl) | rfl) | rfl <;> decide

theorem isAscii_of_isTagChar (h : ∀ z ∈ t, isTagChar z) : isAscii t :=
  List.all_eq_true.mpr fun z hz => by rw [asciiOnly_isTagChar z (h z hz)]; rfl

/-- A search outside quotes, or inside those that open with an ASCII character. -/
theorem passesWide_angle (hq : ∀ q ∈ quote, isQuote q) :
    PassesWide source (loop source angleTurn (fun _ _ => none) quote) := by
  intro i y hb hy
  refine loop_next hb ?_ (Nat.lt_succ_self i)
  cases quote with
  | none => rw [angleTurn, if_neg (ne_of_isWide hy (by decide)), asciiOnly_isQuote.eq_false hy]; rfl
  | some q => rw [angleTurn, if_neg (ne_of_isWide hy (asciiOnly_isQuote q (hq q rfl)))]

theorem loop_angle_offset (hc : c.whole = source) (hq : ∀ q ∈ quote, isQuote q) :
    loop source angleTurn (fun _ _ => none) quote c.offset =
      some ((tagEnd? quote c.ahead).map fun parts => (c.advance parts.1.length).offset) := by
  generalize ht : c.ahead = t
  induction t generalizing c quote with
  | nil =>
    rw [loop_none (byteAt?_end hc ht), tagEnd?]
    rfl
  | cons x t ih =>
    have hnext : ∀ {quote : Option Char}, (∀ q ∈ quote, isQuote q) →
        loop source angleTurn (fun _ _ => none) quote (c.advance 1).offset =
          some (((tagEnd? quote t).map fun parts => (x :: parts.1, parts.2)).map fun parts =>
            (c.advance parts.1.length).offset) := by
      intro quote hq
      rw [ih (whole_advance hc 1) hq (ahead_advance_one ht), Option.map_map]
      refine congrArg (fun f => some (Option.map f _)) (funext fun parts => ?_)
      rw [Cursor.advance_advance, Nat.add_comm]
      rfl
    cases quote with
    | some q =>
      have hw := asciiOnly_isQuote q (hq q rfl)
      rw [tagEnd?]
      by_cases hx : x = q
      · subst hx
        rw [loop_one hc ht hw (by rw [angleTurn, if_pos rfl]), if_pos rfl]
        exact hnext (by simp)
      · rw [(passesWide_angle hq).step hc ht fun hx' => loop_next (byteAt?_ascii hc ht hx')
          (by rw [angleTurn, if_neg hx]) (Nat.lt_succ_self _), if_neg hx]
        exact hnext hq
    | none =>
      rw [tagEnd?]
      by_cases hx : x = '>'
      · subst hx
        rw [loop_done (byteAt?_ascii hc ht (by decide)) (by rw [angleTurn, if_pos rfl]), if_pos rfl]
        rfl
      rw [if_neg hx]
      by_cases hquote : isQuote x
      · rw [loop_one hc ht (asciiOnly_isQuote x hquote)
          (by rw [angleTurn, if_neg hx, if_pos hquote]), if_pos hquote]
        exact hnext fun q hq => Option.some.inj hq ▸ hquote
      · rw [(passesWide_angle hq).step hc ht fun hx' => loop_next (byteAt?_ascii hc ht hx')
          (by rw [angleTurn, if_neg hx, if_neg hquote]) (Nat.lt_succ_self _), if_neg hquote]
        exact hnext hq

theorem angle?_offset (hc : c.whole = source) : angle? source c.offset =
    some ((tagEnd? none c.ahead).map fun parts => (c.advance parts.1.length).offset) := by
  rw [angle?, if_pos (offset_le_size hc)]
  exact loop_angle_offset hc (by simp)

/-- The byte before the `>` that ends a tag tells whether the tag closes itself. There is such a byte: the
tag has a name. -/
theorem byteBefore?_angle (hc : c.whole = source) (hb : c.behind = x :: b) (hx : x ≠ '/')
    (h : c.ahead = inside ++ u) :
    ∃ y, byteBefore? source (c.advance inside.length).offset = some y ∧
      (y = '/' ↔ isSelfClosing inside) := by
  have hbehind : (c.advance inside.length).behind = inside.reverse ++ c.behind := by
    rw [Cursor.advance_length h]
  have hd := whole_advance hc inside.length
  rcases List.eq_nil_or_concat inside with rfl | ⟨s, z, rfl⟩
  · obtain ⟨y, hy, hbyte⟩ := byteBefore?_offset hd (hbehind.trans hb)
    exact ⟨y, hbyte, (hy.eq_iff (by decide)).trans (iff_of_false hx (by decide))⟩
  · rw [List.concat_eq_append, List.reverse_append] at hbehind
    obtain ⟨y, hy, hbyte⟩ := byteBefore?_offset (List.concat_eq_append ▸ hd) hbehind
    refine ⟨y, List.concat_eq_append ▸ hbyte, (hy.eq_iff (by decide)).trans ?_⟩
    rw [isSelfClosing, List.concat_eq_append, List.getLast?_concat]
    simp

/-! ### Templates -/

/-- The place behind an ASCII mark. -/
theorem offset_advance_mark {pat : Text} (h : c.ahead = s ++ (pat ++ u)) (hp : isAscii pat) :
    (c.advance (s.length + pat.length)).offset = (c.advance s.length).offset + pat.length := by
  rw [← Cursor.advance_advance, offset_advance_length (ahead_advance_length h), bytes_of_ascii hp]

/-- The byte after an opening mark ends its name, unless the closing tag starts there. -/
theorem any_boundary (hc : c.whole = source) (h : c.ahead = t ++ (templateClose ++ u)) :
    (byteAt? source c.offset).any isTagBoundary = t.head?.any isTagBoundary := by
  rw [any_byteAt? asciiOnly_isTagBoundary hc, h]
  cases t with
  | nil => rfl
  | cons x t => rfl

theorem nestedOpen?_offset (hc : c.whole = source) (h : c.ahead = s ++ (templateClose ++ u)) :
    nestedOpen? source c.offset (c.advance s.length).offset =
      some ((Component.nestedOpen? s).map fun n => (c.advance n).offset) := by
  rw [nestedOpen?, findIn?_offset hc h (by decide) (by decide), Component.nestedOpen?,
    Option.bind_eq_bind, Option.bind_some]
  cases hcut : Text.cut? templateOpen s with
  | none => rfl
  | some parts =>
    obtain ⟨before, after⟩ := parts
    have happ : c.ahead = (before ++ templateOpen) ++ (after ++ (templateClose ++ u)) := by
      rw [h, Text.append_of_cut? hcut, List.append_assoc]
    have hopen := happ.trans (List.append_assoc _ _ _)
    have hboundary := any_boundary (whole_advance hc _) (ahead_advance_length happ)
    rw [List.length_append, offset_advance_mark hopen (by decide)] at hboundary
    rw [Option.map_some, Option.map_some, Option.filter_some, ← offset_advance_length hopen, hboundary]
    dsimp only
    split_ifs <;> rfl

/-- The end of the content of a template and the end of its closing tag, by index. -/
def ended (c : Cursor) (size : Option Nat) : Option (Nat × Nat) :=
  size.map fun n => ((c.advance n).offset, (c.advance (n + templateClose.length)).offset)

theorem ended_advance (c : Cursor) (m : Nat) (size : Option Nat) :
    ended (c.advance m) size = ended c (size.map (m + ·)) := by
  rw [ended, ended, Option.map_map]
  refine congrArg (Option.map · size) (funext fun n => ?_)
  simp only [Cursor.advance_advance, Function.comp_apply, Nat.add_assoc]

/-- A turn at an opening mark, with the place behind its name. -/
theorem templateTurn_open (hc : c.whole = source) (depth : Nat)
    (hcut : Text.cut? templateClose c.ahead = some (s, u)) (hn : Component.nestedOpen? s = some n) :
    templateTurn source depth c.offset =
      some (match tagEnd? none (c.ahead.drop (n + templateOpen.length)) with
        | none => .done none
        | some (inside, _) => .next (if isSelfClosing inside then depth else depth + 1)
            (c.advance (n + templateOpen.length + inside.length + 1)).offset) := by
  have happ : c.ahead = s ++ (templateClose ++ u) :=
    (Text.append_of_cut? hcut).trans (List.append_assoc _ _ _)
  have hnested := nestedOpen?_offset hc happ
  rw [offset_advance_length happ, hn] at hnested
  obtain ⟨before, after, rfl, rfl⟩ := append_of_nestedOpen? hn
  have hopen : c.ahead = before ++ (templateOpen ++ (after ++ (templateClose ++ u))) := by
    rw [happ, List.append_assoc, List.append_assoc]
  have hangle := angle?_offset (whole_advance hc (before.length + templateOpen.length))
  rw [offset_advance_mark hopen (by decide), Cursor.ahead_advance] at hangle
  rw [templateTurn, find?_offset hc (by decide) (by decide), hcut, Option.map_some, Option.bind_eq_bind,
    Option.bind_some]
  dsimp only
  rw [hnested, Option.map_some, Option.bind_eq_bind, Option.bind_some]
  dsimp only
  rw [hangle, Option.bind_some]
  cases htag : tagEnd? none (c.ahead.drop (before.length + templateOpen.length)) with
  | none => rfl
  | some parts =>
    obtain ⟨inside, x⟩ := parts
    have hinside : (c.advance (before.length + templateOpen.length)).ahead = inside ++ '>' :: x :=
      append_of_tagEnd? htag
    obtain ⟨b, hb⟩ : ∃ b, (c.advance (before.length + templateOpen.length)).behind = 'e' :: b := by
      rw [← Cursor.advance_advance, Cursor.advance_length (ahead_advance_length hopen)]
      exact ⟨_, rfl⟩
    obtain ⟨y, hbyte, hy⟩ := byteBefore?_angle (whole_advance hc _) hb (by decide) hinside
    have hnext : (c.advance (before.length + templateOpen.length + inside.length + 1)).offset =
        ((c.advance (before.length + templateOpen.length)).advance inside.length).offset + 1 := by
      rw [← Cursor.advance_advance, ← Cursor.advance_advance,
        offset_advance_ascii (ahead_advance_length hinside) (by decide)]
    rw [Option.map_some]
    dsimp only
    rw [hbyte, Option.bind_some, hnext]
    simp only [hy]

/-- A turn at a closing tag: the count of open templates is not zero where it is lowered. -/
theorem templateTurn_close (hc : c.whole = source) (depth : Nat)
    (hcut : Text.cut? templateClose c.ahead = some (s, u)) (hn : Component.nestedOpen? s = none) :
    templateTurn source depth c.offset =
      some (match depth with
        | 0 => .done (ended c (some s.length))
        | depth + 1 => .next depth (c.advance (s.length + templateClose.length)).offset) := by
  have happ : c.ahead = s ++ (templateClose ++ u) :=
    (Text.append_of_cut? hcut).trans (List.append_assoc _ _ _)
  have hnested := nestedOpen?_offset hc happ
  rw [offset_advance_length happ, hn] at hnested
  rw [templateTurn, find?_offset hc (by decide) (by decide), hcut, Option.map_some, Option.bind_eq_bind,
    Option.bind_some]
  dsimp only
  rw [hnested, Option.map_none, Option.bind_eq_bind, Option.bind_some, offset_advance_cut (by decide) hcut]
  cases depth with
  | zero =>
    rw [ended, Option.map_some, offset_advance_length happ, offset_advance_cut (by decide) hcut]
    rfl
  | succ depth => rfl

theorem loop_template_offset (hc : c.whole = source) (depth : Nat) :
    sliceLoop source (templateTurn source) depth c.offset =
      some (ended c (templateSize? depth c.ahead)) := by
  generalize hl : c.ahead.length = l
  induction l using Nat.strongRecOn generalizing c depth with
  | ind l ih =>
    have hfind := find?_offset hc (show isAscii templateClose by decide) (by decide)
    rw [templateSize?_eq]
    cases hcut : Text.cut? templateClose c.ahead with
    | none =>
      rw [hcut] at hfind
      refine sliceLoop_done hc ?_
      rw [templateTurn, hfind]
      rfl
    | some parts =>
      obtain ⟨s, u⟩ := parts
      rw [Option.bind_some]
      dsimp only
      cases hn : Component.nestedOpen? s with
      | some n =>
        have hturn := templateTurn_open hc depth hcut hn
        rw [Option.elim_some]
        cases htag : tagEnd? none (c.ahead.drop (n + templateOpen.length)) with
        | none =>
          rw [htag] at hturn
          exact sliceLoop_done hc hturn
        | some parts =>
          obtain ⟨inside, x⟩ := parts
          rw [htag] at hturn
          have hx : (c.advance (n + templateOpen.length + inside.length + 1)).ahead = x := by
            rw [Cursor.ahead_advance, Nat.add_assoc _ inside.length, ← List.drop_drop,
              append_of_tagEnd? htag, ← List.drop_drop, List.drop_left]
            rfl
          have hlt := length_lt_of_tagEnd? htag
          rw [List.length_drop] at hlt
          have hlen : (c.advance (n + templateOpen.length + inside.length + 1)).ahead.length <
              c.ahead.length := by rw [hx]; omega
          rw [sliceLoop_next hc hturn hlen, ih _ (hl ▸ hlen) (whole_advance hc _) _ rfl, ended_advance, hx]
          rfl
      | none =>
        have hturn := templateTurn_close hc depth hcut hn
        rw [Option.elim_none]
        cases depth with
        | zero => exact sliceLoop_done hc hturn
        | succ depth =>
          have hu : (c.advance (s.length + templateClose.length)).ahead = u := by
            rw [← List.length_append]
            exact ahead_advance_length (Text.append_of_cut? hcut)
          have hlen : (c.advance (s.length + templateClose.length)).ahead.length < c.ahead.length := by
            rw [hu]
            exact Text.length_lt_of_cut? hcut (by decide)
          rw [sliceLoop_next hc hturn hlen, ih _ (hl ▸ hlen) (whole_advance hc _) depth rfl,
            ended_advance, hu]
          rfl

theorem templateEnd?_offset (hc : c.whole = source) :
    templateEnd? source c.offset = some (ended c (templateSize? 0 c.ahead)) :=
  loop_template_offset hc 0

/-! ### Blocks -/

theorem offset_eq_sub (hc : c.whole = source) (h : c.ahead = u) :
    c.offset = size source - Text.bytes u := by
  rw [← offset_add_bytes hc, h, Nat.add_sub_cancel]

/-- The end of the content of a block, and the end of its closing tag as the place with the rest of the
text ahead. -/
theorem contentEnd?_offset (hc : c.whole = source) (htag : ∀ z ∈ tag, isTagChar z) :
    contentEnd? source tag c.offset = some ((contentOf? tag c.ahead).map fun (content, after) =>
      ((c.advance content.length).offset, size source - Text.bytes after)) := by
  rw [contentEnd?, contentOf?]
  split_ifs with htemplate
  · rw [templateEnd?_offset hc, ended]
    cases hn : templateSize? 0 c.ahead with
    | none => rfl
    | some n =>
      obtain ⟨s, u, happ, rfl⟩ := append_of_templateSize? hn
      have hu : (c.advance (s.length + templateClose.length)).ahead = u := by
        rw [← List.length_append]
        exact ahead_advance_length (happ.trans (List.append_assoc _ _ _).symm)
      rw [Option.map_some, Option.map_some, Option.map_some, ← Cursor.ahead_advance _ c, hu]
      dsimp only
      rw [← offset_eq_sub (whole_advance hc _) hu, happ, List.take_left]
  · have hclose : isAscii ("</".toList ++ tag ++ ['>']) := by
      rw [isAscii, List.all_append, List.all_append, Bool.and_eq_true, Bool.and_eq_true]
      exact ⟨⟨by decide, isAscii_of_isTagChar htag⟩, by decide⟩
    dsimp only
    rw [units_of_ascii hclose, find?_offset hc hclose (by simp), Option.bind_eq_bind, Option.bind_some,
      size_eq_bytes, bytes_of_ascii hclose]
    cases hcut : Text.cut? ("</".toList ++ tag ++ ['>']) c.ahead with
    | none => rfl
    | some parts =>
      obtain ⟨content, after⟩ := parts
      have happ := Text.append_of_cut? hcut
      have hafter : (c.advance (content.length + ("</".toList ++ tag ++ ['>']).length)).ahead = after := by
        rw [← List.length_append]
        exact ahead_advance_length happ
      rw [Option.map_some, Option.map_some, Option.map_some]
      dsimp only
      rw [← offset_advance_cut hclose hcut, offset_eq_sub (whole_advance hc _) hafter,
        offset_advance_length (happ.trans (List.append_assoc _ _ _))]

/-- A tag that closes itself is followed by the rest of the text. -/
theorem bodyEnd?_offset (hc : c.whole = source) (htag : ∀ z ∈ tag, isTagChar z)
    (hx : x = '/' ↔ closed) :
    bodyEnd? source tag x c.offset =
      some ((if closed then some ([], c.ahead) else contentOf? tag c.ahead).map fun (content, after) =>
        ((c.advance content.length).offset, size source - Text.bytes after)) := by
  rw [bodyEnd?]
  by_cases hclosed : closed
  · rw [if_pos (hx.mpr hclosed), if_pos hclosed, Option.map_some]
    dsimp only
    rw [← offset_eq_sub hc rfl, List.length_nil, Cursor.advance_zero]
  · rw [if_neg (mt hx.mp hclosed), if_neg hclosed, contentEnd?_offset hc htag]

theorem body?_offset (hc : c.whole = source) (htag : ∀ z ∈ tag, isTagChar z) (hx : x = '/' ↔ closed) :
    body? source tag x c.offset =
      some ((if closed then some ([], c.ahead) else contentOf? tag c.ahead).map fun (content, after) =>
        (content, size source - Text.bytes after)) := by
  have hslice : ∀ content after, (if closed then some ([], c.ahead) else contentOf? tag c.ahead) =
      some (content, after) → slice? source c.offset (c.advance content.length).offset = some content := by
    intro content after h
    rw [slice?_advance hc]
    split_ifs at h
    · obtain ⟨rfl, -⟩ := Prod.mk.inj (Option.some.inj h)
      rfl
    · obtain ⟨close, happ⟩ := append_of_contentOf? h
      rw [happ, List.take_left]
  rw [body?, bodyEnd?_offset hc htag hx, Option.bind_eq_bind, Option.bind_some]
  cases hfound : (if closed then some ([], c.ahead) else contentOf? tag c.ahead) with
  | none => rfl
  | some parts =>
    rw [Option.map_some]
    dsimp only
    rw [hslice parts.1 parts.2 hfound]
    rfl

/-- The name of a tag does not end in a slash. -/
theorem behind_advance_name (h : c.ahead = tag ++ u) (hne : tag ≠ []) (htag : ∀ z ∈ tag, isTagChar z) :
    ∃ x b, (c.advance tag.length).behind = x :: b ∧ x ≠ '/' := by
  obtain ⟨x, b, hb⟩ := List.exists_cons_of_ne_nil (List.reverse_ne_nil_iff.mpr hne)
  refine ⟨x, b ++ c.behind, by rw [Cursor.advance_length h, hb]; rfl, ?_⟩
  rintro rfl
  exact absurd (htag '/' (List.mem_reverse.mp (hb ▸ List.mem_cons_self))) (by decide)

/-- A block is read from the place after its mark. -/
theorem block?_offset {start : Nat} (hc : c.whole = source) (hstart : c.offset = start + 1)
    (htag : c.ahead.takeWhile isTagChar = tag) (hne : tag ≠ []) :
    block? source tag start (c.advance tag.length).offset =
      some ((readBlock start c.ahead).map fun (_, b, after) => (b, size source - Text.bytes after)) := by
  have happ : c.ahead = tag ++ c.ahead.dropWhile isTagChar := by
    rw [← htag, List.takeWhile_append_dropWhile]
  have hname : ∀ z ∈ tag, isTagChar z := fun z hz => List.mem_takeWhile_imp (htag ▸ hz)
  have he := whole_advance hc tag.length
  have hangle := angle?_offset he
  rw [ahead_advance_length happ] at hangle
  rw [block?, readBlock, hangle, htag, Option.bind_eq_bind, Option.bind_some]
  dsimp only
  cases hend : tagEnd? none (c.ahead.dropWhile isTagChar) with
  | none => rfl
  | some parts =>
    obtain ⟨inside, beyond⟩ := parts
    have hinside : (c.advance tag.length).ahead = inside ++ '>' :: beyond :=
      (ahead_advance_length happ).trans (append_of_tagEnd? hend)
    have hangle := ahead_advance_length hinside
    obtain ⟨x, b, hb, hx⟩ := behind_advance_name happ hne hname
    obtain ⟨y, hbyte, hy⟩ := byteBefore?_angle he hb hx hinside
    have hslice := slice?_advance he inside.length
    rw [hinside, List.take_left] at hslice
    -- the place behind the tag, where the content starts
    have hbody := body?_offset (whole_advance (whole_advance he inside.length) 1) hname hy
    have hpos := offset_advance_ascii hangle (by decide)
    rw [hpos, ahead_advance_one hangle] at hbody
    rw [Option.map_some]
    dsimp only
    rw [hslice, Option.bind_eq_bind, Option.bind_some, hbyte, Option.bind_eq_bind, Option.bind_some, hbody,
      Option.bind_eq_bind, Option.bind_some, offset_advance_length hinside, offset_advance_length happ,
      hstart]
    by_cases hclosed : isSelfClosing inside
    · rw [if_pos hclosed, if_pos hclosed]
      rfl
    · rw [if_neg hclosed, if_neg hclosed]
      cases contentOf? tag beyond <;> rfl

theorem add?_eq_some (d : Descriptor) (tag : Text) (block : Block) :
    add? d tag block = some (d.add tag block) := by
  rw [add?, Descriptor.add, attributes?_eq_some, Option.bind_eq_bind, Option.bind_some, Block.hasAttr]
  split_ifs <;> rfl

/-! ### Files -/

/-- A turn at a place with the result `r`: the loop ends with it, or goes on from a place further on to
reach it. -/
inductive Turned (c : Cursor) (r : Except Cause Descriptor) :
    Option (Sequel Descriptor (Except Cause Descriptor)) → Prop
  | done : Turned c r (some (.done r))
  | next (d : Descriptor) (n : Nat) (hlt : (c.advance n).ahead.length < c.ahead.length)
      (h : d.parseFrom (c.advance n).offset (c.advance n).ahead = r) :
      Turned c r (some (.next d (c.advance n).offset))

theorem Turned.onward {d : Descriptor} {j : Nat} (hc : c.whole = source) (h : c.ahead = s ++ u)
    (hs : s ≠ []) (hj : j + Text.bytes u = size source) :
    Turned c (d.parseFrom j u) (some (.next d j)) := by
  have hu := ahead_advance_length h
  have hoff := offset_eq_sub (whole_advance hc s.length) hu
  rw [← hj, Nat.add_sub_cancel] at hoff
  have hpos := List.length_pos_iff.mpr hs
  rw [← hoff]
  refine .next d s.length ?_ (by rw [hu])
  rw [hu, h, List.length_append]
  omega

theorem Turned.before {r : Except Cause Descriptor}
    {turn : Option (Sequel Descriptor (Except Cause Descriptor))} (h : Turned (c.advance n) r turn) :
    Turned c r turn := by
  cases h with
  | done => exact .done
  | next d m hlt h =>
    rw [Cursor.advance_advance] at hlt h ⊢
    exact .next d (n + m) (Nat.lt_of_lt_of_le hlt (Cursor.onward_advance n c).length_le) h

theorem turned_comment (hc : c.whole = source) (h : c.ahead = '<' :: t) (d : Descriptor)
    (hopen : "!--".toList.isPrefixOf t) :
    Turned c (d.parseMark c.offset (size source) t) (commentTurn source d c.offset) := by
  -- the search starts at the mark itself, which is no part of a closing one
  have hclose : Text.cut? "-->".toList c.ahead =
      (Text.cut? "-->".toList t).map fun parts => ('<' :: parts.1, parts.2) := by
    rw [h, Text.cut?_cons, if_neg]
    exact fun hpre => absurd (List.cons_prefix_cons.mp hpre).1 (by decide)
  rw [commentTurn, find?_offset hc (by decide) (by decide), hclose, Descriptor.parseMark, if_pos hopen,
    Option.bind_eq_bind, Option.bind_some]
  cases hcut : Text.cut? "-->".toList t with
  | none => exact .done
  | some parts =>
    obtain ⟨inside, u⟩ := parts
    have happ := Text.append_of_cut? hcut
    have hmark : Char.utf8Size '<' = 1 := rfl
    have hend : Text.bytes "-->".toList = 3 := rfl
    have hsize := offset_add_bytes hc
    rw [h, happ, Text.bytes_cons, Text.bytes_append, Text.bytes_append, hmark, hend] at hsize
    rw [Option.map_some, Option.map_some]
    dsimp only
    rw [Text.bytes_cons, hmark, ← Nat.add_assoc c.offset]
    exact .onward hc (s := '<' :: (inside ++ "-->".toList)) (by rw [h, happ]; rfl)
      (List.cons_ne_nil _ _) (by omega)

theorem turned_block (hc : c.whole = source) (h : c.ahead = '<' :: t) (d : Descriptor)
    (hopen : ¬ "!--".toList.isPrefixOf t) :
    Turned c (d.parseMark c.offset (size source) t) (blockTurn source d c.offset) := by
  have hc1 := whole_advance hc 1
  have h1 := ahead_advance_one h
  have hoff := offset_advance_ascii h (by decide)
  have hmark : Char.utf8Size '<' = 1 := rfl
  have hsize := offset_add_bytes hc
  have hspan := spanEnd?_offset asciiOnly_isTagChar hc1
  have hslice := slice?_advance hc1 (t.takeWhile isTagChar).length
  rw [h, Text.bytes_cons, hmark] at hsize
  rw [h1, hoff] at hspan
  rw [h1, hoff, ← List.prefix_iff_eq_take.mp (List.takeWhile_prefix isTagChar)] at hslice
  rw [blockTurn, hspan, Descriptor.parseMark, if_neg hopen, Option.bind_eq_bind, Option.bind_some, hslice,
    Option.bind_eq_bind, Option.bind_some]
  by_cases hname : (t.takeWhile isTagChar).isEmpty
  · rw [if_pos hname, if_pos hname]
    exact .onward hc (s := ['<']) h (List.cons_ne_nil _ _) (by omega)
  · have hblock := block?_offset hc1 hoff (congrArg (List.takeWhile isTagChar) h1)
      (mt List.isEmpty_iff.mpr hname)
    rw [h1] at hblock
    rw [if_neg hname, if_neg hname, hblock, Option.bind_eq_bind, Option.bind_some]
    cases hread : readBlock c.offset t with
    | error cause => exact .done
    | ok parts =>
      obtain ⟨tag, block, u⟩ := parts
      obtain ⟨before, close, happ, -⟩ := append_of_readBlock hread
      have hafter : t = (before ++ '>' :: (block.content ++ close)) ++ u := by
        rw [happ]
        simp only [List.append_assoc, List.cons_append]
      have hle := size_le_of_isSuffix ⟨_, hafter.symm⟩
      rw [size_eq_bytes, size_eq_bytes] at hle
      simp only [Except.map, Except.bind]
      rw [← eq_takeWhile_of_readBlock hread, add?_eq_some, Option.bind_eq_bind, Option.bind_some]
      cases d.add tag block with
      | error cause => exact .done
      | ok d =>
        exact .onward hc (h.trans (congrArg ('<' :: ·) hafter)) (List.cons_ne_nil _ _)
          (Nat.sub_add_cancel (by omega))

theorem turned_parse (hc : c.whole = source) (d : Descriptor) :
    Turned c (d.parseFrom c.offset c.ahead) (parseTurn source d c.offset) := by
  rw [parseTurn, find?_offset hc (by decide) (by decide), Option.bind_eq_bind, Option.bind_some]
  cases hcut : Text.cut? ['<'] c.ahead with
  | none =>
    rw [parseFrom_of_cut?_eq_none hcut]
    exact .done
  | some parts =>
    obtain ⟨s, u⟩ := parts
    have happ := (Text.append_of_cut? hcut).trans (List.append_assoc _ _ _)
    have hd := whole_advance hc s.length
    have hahead := ahead_advance_length happ
    have hstart : startsWith? source "<!--".toList (c.advance s.length).offset =
        some ("!--".toList.isPrefixOf u) := by
      rw [startsWith?_offset hd (by decide), hahead]
      rfl
    rw [Option.map_some, parseFrom_of_cut? hcut, offset_add_bytes hc, ← offset_advance_length happ]
    dsimp only
    rw [← offset_advance_length happ, hstart, Option.bind_eq_bind, Option.bind_some]
    refine Turned.before (n := s.length) ?_
    split_ifs with hopen
    · exact turned_comment hd hahead d hopen
    · exact turned_block hd hahead d hopen

/-- **The search for blocks** at a place. -/
theorem loop_parse_offset (hc : c.whole = source) (d : Descriptor) :
    sliceLoop source (parseTurn source) d c.offset = some (d.parseFrom c.offset c.ahead) := by
  generalize hl : c.ahead.length = l
  induction l using Nat.strongRecOn generalizing c d with
  | ind l ih =>
    have hturned := turned_parse hc d
    generalize hr : d.parseFrom c.offset c.ahead = r at hturned ⊢
    generalize ht : parseTurn source d c.offset = turn at hturned
    cases hturned with
    | done => exact sliceLoop_done hc ht
    | next d n hlt h => rw [sliceLoop_next hc ht hlt, ih _ (hl ▸ hlt) (whole_advance hc n) d rfl, h]

/-- **The blocks of a file** are read by index without a failure. -/
theorem parse?_eq_some (source : Text) : parse? source = some (Descriptor.parse source) := by
  have hloop : sliceLoop source (parseTurn source) ⟨none, none, []⟩ 0 =
      some (Descriptor.parseFrom ⟨none, none, []⟩ 0 source) :=
    loop_parse_offset (c := Cursor.start source) rfl ⟨none, none, []⟩
  rw [parse?, hloop, Descriptor.parse, Option.map_some]
  cases Descriptor.parseFrom ⟨none, none, []⟩ 0 source <;> rfl

end Places
end Unbundled.Component.Indexed
