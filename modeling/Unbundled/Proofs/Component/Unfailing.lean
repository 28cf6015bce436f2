import Unbundled.Proofs.Chain.Failures
import Unbundled.Proofs.Component.Indexed
import Unbundled.Proofs.Component.Search

/-! # Compiling by index

The default export of a script can be searched for in its bytes, by index, and the module of a component
can be assembled with the readers by index (`assemble?`). They fail where a reader of a byte or a slice
does, and where a turn of a loop does not lead on.

* `defaultExport?_eq_some`: the search for the default export never fails.
* `assemble?_eq_some`: no component makes the compiler fail in this way, and a block that is reported as
  not closed stands where the report says. -/

namespace Unbundled.Component.Indexed

open Source Source.Indexed

/-! ### Readers -/

section Readers

variable (code : Text)

/-- A turn of the loop over a string. -/
def skipTurn (q : Char) (_ : Unit) (i : Nat) (x : Char) : Option (Sequel Unit Nat) :=
  some (if x = '\\' then .next () (i + 2) else if x = q then .done (i + 1) else .next () (i + 1))

/-- The end of a string from its content on. One that is not closed runs to the end of the bytes. -/
def skipString? (q : Char) (i : Nat) : Option Nat :=
  loop code (skipTurn q) (fun _ _ => size code) () i

/-- The end of what does not belong to a default export: a comment, a string, or a single byte. -/
def skip? (i : Nat) (x : Char) : Option Nat :=
  if x = '/' ∧ byteAt? code (i + 1) = some '/' then
    (find? code ['\n'] i).bind fun found => some ((found.map (i + ·)).getD (size code))
  else if x = '/' ∧ byteAt? code (i + 1) = some '*' then
    (find? code ['*', '/'] (i + 2)).bind fun found =>
      some ((found.map fun n => i + 2 + n + ['*', '/'].length).getD (size code))
  else if isQuote x || x = backtick then skipString? code x (i + 1)
  else some (i + 1)

/-- Whether a word goes on before an index. -/
def glued? (i : Nat) : Option Bool :=
  if i = 0 then some false else (byteBefore? code i).map isWordChar

/-- Whether a whole word stands at an index. -/
def wordAt? (word : Text) (i : Nat) : Option Bool := do
  if ← startsWith? code word i then
    let glued ← glued? code i
    some (!glued && !(byteAt? code (i + word.length)).any isWordChar)
  else some false

/-- The end of the words `export default`, if they stand at an index. -/
def afterDefault? (i : Nat) : Option (Option Nat) := do
  if ← wordAt? code "export".toList i then
    let stop ← spanEnd? code isSpace (i + "export".toList.length)
    if i + "export".toList.length < stop then
      (wordAt? code "default".toList stop).map fun found =>
        if found then some (stop + "default".toList.length) else none
    else some none
  else some none

/-- A turn of the search for the default export. -/
def exportTurn (_ : Unit) (i : Nat) (x : Char) : Option (Sequel Unit (Option (Nat × Nat))) :=
  if x = 'e' then
    (afterDefault? code i).map fun found =>
      found.elim (.next () (i + 1)) fun stop => .done (some (i, stop))
  else (skip? code i x).map (.next ())

/-- The start and the end of the words of the first default export. -/
def defaultExport? : Option (Option (Nat × Nat)) :=
  loop code (exportTurn code) (fun _ _ => none) () 0

/-- The code of a script that declares the component object. -/
def bindMain? : Option Text := do
  match ← defaultExport? code with
  | none => some (code ++ '\n' :: emptyMain)
  | some (start, stop) =>
    let before ← slice? code 0 start
    let after ← slice? code stop (size code)
    some (before ++ "const ".toList ++ mainName ++ " =".toList ++ after)

end Readers

/-- The value of an attribute. -/
def attr? (b : Block) (name : Text) : Option (Option Text) :=
  (attributes? b.attrs).map fun pairs => (pairs.find? fun (key, _) => key == name).bind Prod.snd

/-- Refuses a block that refers to another file. -/
def checkExternal? (tag : Text) (b : Block) : ExceptT Cause Option Unit :=
  (attr? b "src".toList).map fun found =>
    found.elim (.ok ()) fun source => .error (.external tag source)

/-- Refuses a block in a language that is not among the given ones. -/
def checkLanguage? (tag : Text) (known : List Text) (b : Block) : ExceptT Cause Option Unit :=
  (attr? b "lang".toList).map fun found =>
    found.elim (.ok ()) fun lang => if known.contains lang then .ok () else .error (.language tag lang)

/-- The line that declares the template. -/
def compileTemplate? (b : Block) : ExceptT Cause Option Text := do
  checkExternal? "template".toList b
  checkLanguage? "template".toList ["html".toList] b
  return "const ".toList ++ templateName ++ " = ".toList ++ Literal.quote (Text.trim b.content) ++ [';']

/-- The code that declares the component object. -/
def compileScript? (script : Option Block) : ExceptT Cause Option Text :=
  match script with
  | none => return emptyMain
  | some b => do
    checkExternal? "script".toList b
    checkLanguage? "script".toList ["js".toList, "javascript".toList] b
    (bindMain? (Text.trim b.content) : Option Text)

/-- The module of a component's blocks. -/
def toModule? (d : Descriptor) (file id : Text) : ExceptT Cause Option Text := do
  let template ← d.template.mapM compileTemplate?
  let script ← compileScript? d.script
  return template.elim [] line ++ (line script ++ (linesAfter d file id ++ exportLine))

/-- The module of a component file. -/
def assemble? (file id source : Text) : Option (Except Fault Text) :=
  (parse? source).bind fun parsed =>
    (ExceptT.run (do toModule? (← ExceptT.mk (some parsed)) file id)).map
      (Except.mapError (⟨file, ·⟩))

section Places

variable {b t u : Text} {c d e : Cursor} {code : Text} {x q : Char} {n : Nat}

/-! ### Strings and comments -/

theorem isWide_of_opening (hq : isQuote q ∨ q = backtick) : isWide q = false := by
  rcases hq with hq | rfl
  · exact asciiOnly_isQuote q hq
  · decide

theorem passesWide_skip (hq : isQuote q ∨ q = backtick) :
    PassesWide code (loop code (skipTurn q) (fun _ _ => size code) ()) := by
  refine passesWide_loop (fun s i y hy => ?_) ()
  rw [skipTurn, if_neg (ne_of_isWide hy (by decide)), if_neg (ne_of_isWide hy (isWide_of_opening hq))]

theorem skipString?_offset (hq : isQuote q ∨ q = backtick) (hc : c.whole = code) :
    skipString? code q c.offset =
      some (c.advance ((closingQuote? q c.ahead).getD c.ahead.length)).offset := by
  have hwide := isWide_of_opening hq
  have hslash : q ≠ '\\' := by
    rintro rfl
    exact absurd hq (by decide)
  have hshift : ∀ (k m : Nat) (found : Option Nat) (c : Cursor),
      ((c.advance k).advance (found.getD m)).offset =
        (c.advance ((found.map (· + k)).getD (m + k))).offset := by
    intro k m found c
    rw [Cursor.advance_advance, Nat.add_comm k]
    cases found <;> rfl
  rw [skipString?]
  generalize ht : c.ahead = t
  fun_induction closingQuote? q t generalizing c with
  | case1 x t ih =>
    have hnext := ih (whole_advance hc 2) (by rw [Cursor.ahead_advance, ht]; rfl)
    rw [hshift] at hnext
    rw [loop_two (passesWide_skip hq) hc ht (by rw [skipTurn, if_pos rfl]), hnext]
    rfl
  | case2 t hx =>
    rw [loop_done (byteAt?_ascii hc ht hwide) (by rw [skipTurn, if_neg hslash, if_pos rfl]),
      ← offset_advance_ascii ht hwide]
    rfl
  | case3 x t hx hxq ih =>
    by_cases hback : x = '\\'
    · subst hback
      obtain rfl : t = [] := eq_nil_of_not_cons fun y u => hx y u rfl
      rw [loop_overrun hc ht (by rw [skipTurn, if_pos rfl]), ← offset_finish hc, Cursor.finish, ht]
      rfl
    have hnext := ih (whole_advance hc 1) (ahead_advance_one ht)
    rw [hshift] at hnext
    rw [(passesWide_skip hq).step hc ht fun hw => loop_next (byteAt?_ascii hc ht hw)
      (by rw [skipTurn, if_neg hback, if_neg hxq]) (Nat.lt_succ_self _), hnext]
    rfl
  | case4 => 
    rw [loop_none (byteAt?_end hc ht), ← offset_finish hc, Cursor.finish, ht]
    rfl

/-- The end of a line is where its newline begins, or the end of the text. -/
theorem find?_newline (hc : c.whole = code) :
    ((find? code ['\n'] c.offset).bind fun found => some ((found.map (c.offset + ·)).getD (size code))) =
      some (c.advance (c.ahead.takeWhile (· ≠ '\n')).length).offset := by
  have hline := indexOf?_getD (· == '\n') c.ahead
  have hnot : (fun z => !(z == '\n')) = fun z : Char => decide (z ≠ '\n') :=
    funext fun z => by rw [decide_not]; rfl
  rw [indexOf?_beq, hnot, size_eq_bytes] at hline
  have hahead := (List.takeWhile_append_dropWhile (p := fun z => decide (z ≠ '\n')) (l := c.ahead)).symm
  rw [find?_offset hc (by decide) (by decide), Option.bind_some, ← offset_add_bytes hc,
    offset_advance_length hahead, ← hline]
  cases Text.cut? ['\n'] c.ahead <;> rfl

theorem byteAt?_second (hc : c.whole = code) (h : c.ahead = x :: t) (hx : isWide x = false)
    (hq : isWide q = false) : byteAt? code (c.offset + 1) = some q ↔ t.head? = some q := by
  rw [← offset_advance_ascii h hx, byteAt?_eq_some_iff (whole_advance hc 1) hq, ahead_advance_one h]

theorem skip?_offset (hc : c.whole = code) (h : c.ahead = x :: t) (hx : isWide x = false) :
    skip? code c.offset x = some (c.advance (passed x t + 1)).offset := by
  have hoff := offset_advance_ascii h hx
  have hsecond : ∀ q, isWide q = false → (byteAt? code (c.offset + 1) = some q ↔ t.head? = some q) :=
    fun q => byteAt?_second hc h hx
  rw [skip?]
  by_cases hline : x = '/' ∧ byteAt? code (c.offset + 1) = some '/'
  · rw [if_pos hline, find?_newline hc, h]
    obtain ⟨rfl, hbyte⟩ := hline
    obtain ⟨u, rfl⟩ := List.head?_eq_some_iff.mp ((hsecond '/' (by decide)).mp hbyte)
    rw [passed_line, List.takeWhile_cons_of_pos (by decide), List.takeWhile_cons_of_pos (by decide)]
    rfl
  rw [if_neg hline]
  by_cases hblock : x = '/' ∧ byteAt? code (c.offset + 1) = some '*'
  · rw [if_pos hblock]
    obtain ⟨rfl, hbyte⟩ := hblock
    obtain ⟨u, rfl⟩ := List.head?_eq_some_iff.mp ((hsecond '*' (by decide)).mp hbyte)
    have hoff2 : (c.advance 2).offset = c.offset + 2 := by
      rw [← Cursor.advance_advance 1 1, offset_advance_ascii (ahead_advance_one h) (by decide), hoff]
    have hfind := find?_close (whole_advance hc 2) (show isAscii ['*', '/'] by decide) (by decide)
    rw [hoff2, Cursor.ahead_advance, h] at hfind
    rw [passed_block, blockEnd?_eq, Nat.add_right_comm, ← Cursor.advance_advance]
    exact hfind
  rw [if_neg hblock]
  by_cases hq : isQuote x ∨ x = backtick
  · have hskip := skipString?_offset hq (whole_advance hc 1)
    rw [hoff, ahead_advance_one h, Cursor.advance_advance, Nat.add_comm 1, ← passed_quote hq] at hskip
    rw [if_pos (by simpa using hq), hskip]
  · have hnone : passed x t = 0 := by
      by_cases hslash : x = '/'
      · subst hslash
        exact passed_slash (fun hhead => hline ⟨rfl, (hsecond _ (by decide)).mpr hhead⟩)
          fun hhead => hblock ⟨rfl, (hsecond _ (by decide)).mpr hhead⟩
      · exact passed_other hslash hq t
    rw [if_neg (by simpa using hq), hnone, ← hoff]

/-! ### The words of a default export -/

theorem glued?_offset (hc : c.whole = code) :
    glued? code c.offset = some (c.behind.head?.any isWordChar) := by
  rw [glued?]
  cases hb : c.behind with
  | nil =>
    rw [Cursor.offset, hb]
    rfl
  | cons x b =>
    obtain ⟨y, hy, hbyte⟩ := byteBefore?_offset hc hb
    have hpos := x.utf8Size_pos
    have hoff := offset_behind hb
    rw [if_neg (by omega), hbyte, Option.map_some, hy.class_eq asciiOnly_isWordChar]
    rfl

theorem wordAt?_offset (hc : c.whole = code) {word : Text} (hw : isAscii word) :
    wordAt? code word c.offset = some (afterWord? word c).isSome := by
  rw [wordAt?, startsWith?_offset hc hw, Option.bind_eq_bind, Option.bind_some, afterWord?]
  cases ha : Text.after? word c.ahead with
  | none =>
    have hpre : ¬ word.isPrefixOf c.ahead := by
      rw [List.isPrefixOf_iff_prefix]
      rintro ⟨u, hu⟩
      exact absurd (Text.after?_eq_some_iff.mpr hu.symm) (by rw [ha]; simp)
    rw [if_neg hpre]
    split_ifs <;> rfl
  | some u =>
    have happ := Text.after?_eq_some_iff.mp ha
    have hpre : word.isPrefixOf c.ahead := List.isPrefixOf_iff_prefix.mpr ⟨u, happ.symm⟩
    have hnext := any_byteAt? asciiOnly_isWordChar (whole_advance hc word.length)
    rw [offset_advance_length happ, bytes_of_ascii hw, ahead_advance_length happ] at hnext
    rw [if_pos hpre, glued?_offset hc, Option.bind_some, hnext]
    dsimp only
    cases c.behind.head?.any isWordChar with
    | true => rfl
    | false =>
      rw [if_neg Bool.false_ne_true]
      cases u.head?.any isWordChar <;> rfl

theorem offset_of_afterWord? {word : Text} (hw : isAscii word) (h : afterWord? word c = some d) :
    d.offset = c.offset + word.length := by
  obtain ⟨-, t, happ, -, rfl⟩ := afterWord?_eq_some_iff.mp h
  rw [offset_advance_length happ, bytes_of_ascii hw]

theorem whole_of_afterWord? {word : Text} (h : afterWord? word c = some d) : d.whole = c.whole := by
  obtain ⟨-, t, -, -, rfl⟩ := afterWord?_eq_some_iff.mp h
  exact Cursor.whole_advance _ c

theorem afterDefault?_offset (hc : c.whole = code) :
    afterDefault? code c.offset = some ((Component.afterDefault? c).map Cursor.offset) := by
  rw [afterDefault?, wordAt?_offset hc (by decide), Component.afterDefault?, Option.bind_eq_bind,
    Option.bind_some]
  cases he : afterWord? "export".toList c with
  | none => rfl
  | some e =>
    have hwhole := (whole_of_afterWord? he).trans hc
    have hspan := spanEnd?_offset asciiOnly_isSpace hwhole
    rw [offset_of_afterWord? (by decide) he] at hspan
    rw [Option.isSome_some, if_pos rfl, hspan, Option.bind_eq_bind, Option.bind_some, Option.bind_eq_bind,
      Option.bind_some, ← offset_of_afterWord? (by decide) he]
    dsimp only
    by_cases hn : (e.ahead.takeWhile isSpace).length = 0
    · rw [hn, Cursor.advance_zero, if_neg (Nat.lt_irrefl _)]
      rfl
    · have hne : e.ahead ≠ [] := fun hnil => hn (by rw [hnil]; rfl)
      rw [if_pos (Cursor.offset_lt_advance hne (Nat.pos_of_ne_zero hn)), if_neg hn,
        wordAt?_offset (whole_advance hwhole _) (by decide), Option.map_some]
      cases hd : afterWord? "default".toList (e.advance (e.ahead.takeWhile isSpace).length) with
      | none => rfl
      | some d =>
        rw [← offset_of_afterWord? (by decide) hd]
        rfl

/-! ### The search for the default export -/

/-- A turn at an ASCII character. -/
theorem exportTurn_offset (hc : c.whole = code) (h : c.ahead = x :: t) (hx : isWide x = false) :
    exportTurn code () c.offset x = some ((Component.afterDefault? c).elim
      (.next () (c.advance (passed x t + 1)).offset) fun d => .done (some (c.offset, d.offset))) := by
  rw [exportTurn]
  by_cases he : x = 'e'
  · subst he
    rw [if_pos rfl, afterDefault?_offset hc, passed_wordChar (by decide), offset_advance_ascii h hx]
    cases Component.afterDefault? c <;> rfl
  · have hnone : Component.afterDefault? c = none := by
      rw [← Option.not_isSome_iff_eq_none]
      intro hd
      obtain ⟨u, hu⟩ := exists_cons_of_atDefault hd
      exact he (List.cons.inj (h.symm.trans hu)).1
    rw [if_neg he, skip?_offset hc h hx, hnone]
    rfl

theorem passesWide_export :
    PassesWide code (loop code (exportTurn code) (fun _ _ => none) ()) := by
  refine passesWide_loop (fun s i y hy => ?_) ()
  have hne : ∀ z, isWide z = false → y ≠ z := fun z => ne_of_isWide hy
  rw [exportTurn, if_neg (hne _ (by decide)), skip?, if_neg fun h => hne _ (by decide) h.1,
    if_neg fun h => hne _ (by decide) h.1, asciiOnly_isQuote.eq_false hy,
    if_neg (by simpa using hne backtick (by decide))]
  rfl

theorem loop_export_offset (hc : c.whole = code) :
    loop code (exportTurn code) (fun _ _ => none) () c.offset =
      some ((Component.defaultExport? c).map fun (before, after) => (before.offset, after.offset)) := by
  generalize hl : c.ahead.length = l
  induction l using Nat.strongRecOn generalizing c with
  | ind l ih =>
    cases h : c.ahead with
    | nil => rw [loop_none (byteAt?_end hc h), defaultExport?_nil h]; rfl
    | cons x t =>
      have hlen := Cursor.length_advance_lt h (passed x t)
      have hnext := ih _ (hl ▸ hlen) (whole_advance hc (passed x t + 1)) rfl
      cases hd : Component.afterDefault? c with
      | some d =>
        obtain ⟨u, hu⟩ := exists_cons_of_atDefault (c := c) (by rw [AtDefault, hd]; rfl)
        have hturn := exportTurn_offset hc hu (by decide)
        rw [hd] at hturn
        rw [loop_done (byteAt?_ascii hc hu (by decide)) hturn, defaultExport?_of_some hd]
        rfl
      | none =>
        have hnot : ¬ AtDefault c := by rw [AtDefault, hd]; simp
        rw [defaultExport?_cons h hnot, ← hnext]
        cases hx : isWide x with
        | false =>
          have hturn := exportTurn_offset hc h hx
          rw [hd] at hturn
          exact loop_next (byteAt?_ascii hc h hx) hturn
            (Cursor.offset_lt_advance (by rw [h]; simp) (Nat.succ_pos _))
        | true =>
          have hnone : passed x t = 0 := passed_other (ne_of_isWide hx (by decide))
            (fun hq => absurd ((isWide_of_opening hq).symm.trans hx) (by decide)) t
          rw [hnone]
          exact passesWide_export.step hc h fun hx' => absurd (hx'.symm.trans hx) (by decide)

/-- **The search for the default export** never fails. -/
theorem defaultExport?_eq_some (code : Text) : defaultExport? code =
    some ((Component.defaultExport? (Cursor.start code)).map fun (before, after) =>
      (before.offset, after.offset)) :=
  loop_export_offset (c := Cursor.start code) rfl

theorem bindMain?_eq_some (code : Text) : bindMain? code = some (bindMain code) := by
  rw [bindMain?, defaultExport?_eq_some, bindMain, Option.bind_eq_bind, Option.bind_some]
  cases hfound : Component.defaultExport? (Cursor.start code) with
  | none => rfl
  | some places =>
    obtain ⟨d, e⟩ := places
    obtain ⟨hd, he⟩ := whole_defaultExport? hfound
    rw [Option.map_some]
    dsimp only
    rw [slice?_behind (hd.trans (Cursor.whole_start code)), Option.bind_eq_bind, Option.bind_some,
      slice?_ahead (he.trans (Cursor.whole_start code))]
    rfl

end Places

/-! ### Modules -/

section Modules

variable {d : Descriptor} {file id tag : Text} {offset : Nat}

theorem attr?_eq_some (b : Block) (name : Text) : attr? b name = some (b.attr? name) := by
  rw [attr?, attributes?_eq_some]
  rfl

theorem checkExternal?_eq (tag : Text) (b : Block) :
    checkExternal? tag b = ExceptT.mk (some (checkExternal tag b)) := by
  rw [checkExternal?, attr?_eq_some, checkExternal]
  cases b.attr? "src".toList <;> rfl

theorem checkLanguage?_eq (tag : Text) (known : List Text) (b : Block) :
    checkLanguage? tag known b = ExceptT.mk (some (checkLanguage tag known b)) := by
  rw [checkLanguage?, attr?_eq_some, checkLanguage]
  cases b.attr? "lang".toList <;> rfl

theorem compileTemplate?_eq (b : Block) :
    compileTemplate? b = ExceptT.mk (some (compileTemplate b)) := by
  rw [compileTemplate?, compileTemplate, checkExternal?_eq, checkLanguage?_eq]
  cases checkExternal "template".toList b with
  | error cause => rfl
  | ok _ => cases checkLanguage "template".toList ["html".toList] b <;> rfl

theorem compileScript?_eq (script : Option Block) :
    compileScript? script = ExceptT.mk (some (compileScript script)) := by
  cases script with
  | none => rfl
  | some b =>
    rw [compileScript?, compileScript, checkExternal?_eq, checkLanguage?_eq, bindMain?_eq_some]
    cases checkExternal "script".toList b with
    | error cause => rfl
    | ok _ => cases checkLanguage "script".toList ["js".toList, "javascript".toList] b <;> rfl

theorem toModule?_eq (d : Descriptor) (file id : Text) :
    toModule? d file id = ExceptT.mk (some (d.toModule file id)) := by
  rw [toModule?, Descriptor.toModule, compileScript?_eq, linesAfter]
  cases ht : d.template with
  | none =>
    rw [Option.mapM_none, Option.mapM_none]
    cases compileScript d.script with
    | error cause => rfl
    | ok script =>
      refine congrArg (fun m => ExceptT.mk (some (.ok m))) ?_
      simp
  | some b =>
    rw [Option.mapM_some, Option.mapM_some, compileTemplate?_eq]
    cases compileTemplate b with
    | error cause => rfl
    | ok template =>
      cases compileScript d.script with
      | error cause => rfl
      | ok script =>
        refine congrArg (fun m => ExceptT.mk (some (.ok m))) ?_
        simp

/-! ### Blocks that are not closed -/

theorem checkExternal_ne (tag' : Text) (b : Block) :
    checkExternal tag' b ≠ .error (.unclosed tag offset) := by
  rw [checkExternal]
  split <;> simp

theorem checkLanguage_ne (tag' : Text) (known : List Text) (b : Block) :
    checkLanguage tag' known b ≠ .error (.unclosed tag offset) := by
  rw [checkLanguage]
  split
  · split <;> simp
  · simp

theorem checked_ne (tag' : Text) (known : List Text) (b : Block) (code : Text) :
    (do checkExternal tag' b; checkLanguage tag' known b; return code) ≠
      Except.error (.unclosed tag offset) := by
  intro h
  rcases bind_eq_error_iff.mp h with h | ⟨_, -, h⟩
  · exact checkExternal_ne _ b h
  · rcases bind_eq_error_iff.mp h with h | ⟨_, -, h⟩
    · exact checkLanguage_ne _ _ b h
    · cases h

/-- Blocks that have been read are closed. -/
theorem toModule_ne : d.toModule file id ≠ .error (.unclosed tag offset) := by
  rw [Ne, toModule_eq_error_iff]
  rintro (⟨b, -, h⟩ | ⟨-, h⟩)
  · exact checked_ne _ _ b _ h
  · cases hs : d.script with
    | none =>
      rw [hs] at h
      cases h
    | some b =>
      rw [hs] at h
      exact checked_ne _ _ b _ h

theorem add_ne (d : Descriptor) (tag' : Text) (b : Block) :
    d.add tag' b ≠ .error (.unclosed tag offset) := by
  rw [Descriptor.add]
  split_ifs <;> simp

/-- **The mark of a block** is at the byte `offset` of a text that starts at byte `pos`. -/
def MarkAt (tag : Text) (pos offset : Nat) (t : Text) : Prop :=
  ∃ before after, t = before ++ '<' :: (tag ++ after) ∧ pos + Text.bytes before = offset

theorem MarkAt.append {pos : Nat} {s t : Text} (h : MarkAt tag (pos + Text.bytes s) offset t) :
    MarkAt tag pos offset (s ++ t) := by
  obtain ⟨before, after, rfl, rfl⟩ := h
  exact ⟨s ++ before, after, (List.append_assoc _ _ _).symm, by rw [Text.bytes_append, Nat.add_assoc]⟩

/-- A block that is reported as not closed starts where the report says. -/
theorem markAt_of_parseFrom {pos : Nat} {t : Text}
    (h : d.parseFrom pos t = .error (.unclosed tag offset)) : MarkAt tag pos offset t := by
  fun_induction Descriptor.parseFrom d pos t with
  | case1 => exact absurd h (by simp)
  | case2 d pos t before after hcut start hopen hclose =>
    obtain ⟨rfl, rfl⟩ := Cause.unclosed.inj (Except.error.inj h)
    obtain ⟨u, rfl⟩ := List.isPrefixOf_iff_prefix.mp hopen
    exact ⟨before, u, (Text.append_of_cut? hcut).trans (List.append_assoc _ _ _), rfl⟩
  | case3 d pos t before after hcut start hopen inside beyond hclose ih =>
    rw [Text.append_of_cut? hcut, Text.append_of_cut? hclose, ← List.append_assoc]
    exact MarkAt.append (pos_comment pos before inside ▸ ih h)
  | case4 d pos t before after hcut start hopen hname ih =>
    have hpos : start + 1 = pos + Text.bytes (before ++ ['<']) := by
      rw [Text.bytes_append, ← Nat.add_assoc]
      rfl
    rw [Text.append_of_cut? hcut]
    exact MarkAt.append (hpos ▸ ih h)
  | case5 d pos t before after hcut start hopen hname cause hread =>
    rw [eq_unclosed_of_readBlock hread] at h
    obtain ⟨rfl, rfl⟩ := Cause.unclosed.inj (Except.error.inj h)
    refine ⟨before, after.dropWhile isTagChar, ?_, rfl⟩
    rw [List.takeWhile_append_dropWhile]
    exact (Text.append_of_cut? hcut).trans (List.append_assoc _ _ _)
  | case6 d pos t before after hcut start hopen hname tag' block beyond hread cause hadd =>
    exact absurd (hadd.trans h) (add_ne d tag' block)
  | case7 d pos t before after hcut start hopen hname tag' block beyond hread e hadd ih =>
    obtain ⟨front, close, rfl, -⟩ := append_of_readBlock hread
    have happ : t = (before ++ ['<'] ++ (front ++ '>' :: (block.content ++ close))) ++ beyond := by
      rw [Text.append_of_cut? hcut]
      simp only [List.append_assoc, List.cons_append]
    have hpos : pos + Text.bytes t - Text.bytes beyond =
        pos + Text.bytes (before ++ ['<'] ++ (front ++ '>' :: (block.content ++ close))) := by
      rw [happ, Text.bytes_append, ← Nat.add_assoc, Nat.add_sub_cancel]
    rw [happ]
    exact MarkAt.append (hpos ▸ ih h)

/-- **No component makes the compiler fail by index.** Whatever the text, no byte is read out of range, every
slice lies between boundaries of characters, the count of open templates is not lowered at zero, and
every turn of a loop leads on; the result is the module of the component or the failure to make one. A
block that is reported as not closed has its mark at the reported byte. -/
theorem assemble?_eq_some (file id source : Text) :
    assemble? file id source = some (assemble file id source) ∧
    ∀ name tag offset, assemble file id source = .error ⟨name, .unclosed tag offset⟩ →
      ∃ before after, source = before ++ '<' :: (tag ++ after) ∧ Text.bytes before = offset := by
  constructor
  · rw [assemble?, parse?_eq_some, assemble, Option.bind_some]
    cases Descriptor.parse source with
    | error cause => rfl
    | ok d => exact congrArg (Option.map (Except.mapError (Fault.mk file))) (toModule?_eq d file id)
  · intro name tag offset h
    obtain ⟨_, hrejects, hcause⟩ := assemble_eq_error_iff.mp h
    obtain rfl := (Fault.mk.inj hcause).2
    rcases (@rejects_iff _ file id source).mp hrejects with hparse | ⟨d, -, hmodule⟩
    · rw [Descriptor.parse] at hparse
      split at hparse
      · rename_i hfrom
        obtain rfl := Except.error.inj hparse
        obtain ⟨before, after, happ, hoffset⟩ := markAt_of_parseFrom hfrom
        exact ⟨before, after, happ, (Nat.zero_add _).symm.trans hoffset⟩
      · split at hparse <;> simp at hparse
    · exact absurd hmodule toModule_ne

end Modules

end Unbundled.Component.Indexed
