import Unbundled.Proofs.Component.Pages
import Unbundled.Proofs.Component.Sealing
import Unbundled.Proofs.Component.Search
import Unbundled.Proofs.Source.Replaced

/-! # The default export of a component

In the code of a script the words of its default export are replaced by the declaration of the
component object. The characters around them might be read in another way then. They are not if the
words stand on one line and the value after them does not start with a regular expression:

* `silent_declaration`: what comes before the words is read as it was.
* `Silent.rebind`: what comes after them is read as it was.
* `Readable.silent`: the lines of a readable script have no default export left.

So the module of a readable script has one default export, its last line (`sealed_iff_exportsOnce`),
and not of every script (`exists_exported_twice`). -/

namespace Unbundled.Component

open Source Import

variable {b b' code p q s g t u v : Text} {x : Char}

/-! ### A value behind other words -/

/-- White space that a text starts with, if it does not start within a word. -/
structure Blank (g u : Text) : Prop where
  space : ∀ c ∈ g, isSpace c
  word : g = [] → NoWord u

theorem Blank.cons (h : Blank g (x :: u)) (hx : isSpace x) : Blank (x :: g) u where
  space := List.forall_mem_cons.mpr ⟨hx, h.space⟩
  word hn := absurd hn (by simp)

theorem Blank.noWord (h : Blank g (x :: u)) (hx : isWordChar x) (b : Text) : NoWord (g ++ b) := by
  cases g with
  | nil => exact absurd hx (h.word rfl x rfl)
  | cons y g => exact noWord_cons (not_isWordChar_of_isSpace (h.space y List.mem_cons_self)) _

theorem Blank.alike (h : Blank g (x :: u)) (hx : ¬ isSpace x) (b b' : Text) :
    Alike (x :: g ++ b) (x :: g ++ b') := by
  refine alike_append b b' ⟨x, List.mem_cons_self, hx⟩ ?_
  refine ⟨_, List.getLast?_eq_some_getLast (List.cons_ne_nil x g), fun hw => ?_⟩
  rcases List.mem_cons.mp (List.getLast_mem (List.cons_ne_nil x g)) with heq | hmem
  · cases g with
    | nil => exact h.word rfl x rfl hw
    | cons y g =>
      rw [List.getLast_cons_cons] at hw
      exact not_isWordChar_of_isSpace (h.space _ (List.getLast_mem _)) hw
  · exact not_isWordChar_of_isSpace (h.space _ hmem) hw

/-- The first lexeme of a value is the same behind other words. -/
theorem Blank.read_eq (h : Blank g (x :: u)) (hx : ¬ isSpace x) (hr : ¬ startsRegex (x :: u))
    (b b' : Text) : Lexeme.read (g ++ b) x u = Lexeme.read (g ++ b') x u := by
  have ht : templateEnd? (.text []) (x :: (g ++ b)) u = templateEnd? (.text []) (x :: (g ++ b')) u :=
    (h.alike hx b b').templateEnd?_eq (.text []) u
  rw [Lexeme.read, Lexeme.read, ht]
  split
  · rfl
  rw [Lexeme.readFlat, Lexeme.readFlat]
  split
  · rename_i hs
    subst hs
    obtain ⟨n, hn⟩ := Option.ne_none_iff_exists'.mp fun hn => hr (startsRegex_slash.mpr hn)
    rw [hn]
  · rfl

/-- **A value that does not start with a regular expression is read in the same way behind other
words.** -/
theorem Silent.rebind (hu : Blank g u) (hr : ¬ startsRegex u)
    (h : Silent ⟨g ++ b, u⟩ ⟨q ++ b, v⟩) : Silent ⟨g ++ b', u⟩ ⟨q ++ b', v⟩ := by
  generalize hc : (⟨g ++ b, u⟩ : Cursor) = c at h
  generalize hd : (⟨q ++ b, v⟩ : Cursor) = d at h
  induction h generalizing g u with
  | stay =>
    obtain ⟨hq, rfl⟩ := Cursor.mk.inj (hc.trans hd.symm)
    rw [List.append_cancel_right hq]
    exact .stay _
  | @step c d x w hx hn hrun ih =>
    subst hc hd
    obtain rfl : u = x :: w := hx
    have hnone : ¬ AtDefault ⟨g ++ b', x :: w⟩ := by
      intro ha
      obtain ⟨gap, t, hwords, hgap, hspace, -, ht⟩ := atDefault_iff.mp ha
      obtain rfl : x = 'e' := (List.cons.inj hwords).1
      exact hn (atDefault_iff.mpr
        ⟨gap, t, hwords, hgap, hspace, hu.noWord (by decide) b, ht⟩)
    refine .step rfl hnone ?_
    by_cases hs : isSpace x
    · rw [Lexeme.read_plain (isPlain_of_isSpace hs)] at ih ⊢
      exact ih (hu.cons hs) (by rwa [startsRegex_space hs] at hr) rfl rfl
    · -- what stands before the lexeme does not count behind it
      dsimp only at hrun ⊢
      rw [hu.read_eq hs hr b b'] at hrun
      generalize (Lexeme.read (g ++ b') x w).size = n at hrun ⊢
      rw [Cursor.advance_cons] at hrun ⊢
      obtain ⟨k, hk⟩ := hrun.walk.onward
      have hq : q ++ b = ((w.drop n).take k).reverse ++ (w.take n).reverse ++ (x :: g ++ b) := by
        rw [List.append_assoc]
        exact congrArg Cursor.behind hk
      rw [← List.append_assoc] at hq
      obtain rfl := List.append_cancel_right hq
      rw [List.append_assoc] at hrun ⊢
      exact Silent.alike (hu.alike hs b b') hrun

/-! ### The words that are replaced -/

/-- What takes the place of the words of a default export. -/
def declaration : Text := "const ".toList ++ mainName ++ " =".toList

theorem declaration_eq : declaration = "const ".toList ++ mainName ++ " =".toList := rfl

theorem still_of_spaces (h : ∀ c ∈ u, isSpace c) : Still u := by
  induction u with
  | nil => exact still_nil
  | cons x u ih =>
    have hx := h x List.mem_cons_self
    have hne : x ≠ 'e' := by rintro rfl; exact absurd hx (by decide)
    refine (ih fun c hc => h c (List.mem_cons_of_mem x hc)).cons (u := [])
      (fun b t => not_atDefault_of_ne hne b _) fun b t => ?_
    rw [Lexeme.read_plain (isPlain_of_isSpace hx)]
    rfl

theorem walk_word (hw : IsWord u) (ht : NoWord t) : Walk ⟨b, u ++ t⟩ [] ⟨u.reverse ++ b, t⟩ := by
  obtain ⟨x, v, hx, hnext⟩ := @advance_word ⟨b, u ++ t⟩ t u hw ht rfl
  exact (walk_cons_iff hx).mpr (Or.inr (hnext ▸ Walk.stay))

/-- The words are passed as code. -/
theorem walk_exportWords {gap : Text} (hgap : gap ≠ []) (hspace : ∀ c ∈ gap, isSpace c)
    (ht : NoWord t) :
    Walk ⟨b, exportWords gap ++ t⟩ [] ⟨(exportWords gap).reverse ++ b, t⟩ := by
  have hword : NoWord (gap ++ ("default".toList ++ t)) := by
    obtain ⟨g, gs, rfl⟩ := List.exists_cons_of_ne_nil hgap
    exact noWord_cons (not_isWordChar_of_isSpace (hspace g List.mem_cons_self)) _
  have h1 := walk_word (b := b) (u := "export".toList) ⟨by decide, by decide⟩ hword
  have h2 := (still_of_spaces hspace ("export".toList.reverse ++ b) ("default".toList ++ t)).walk
  have h3 := walk_word (b := gap.reverse ++ ("export".toList.reverse ++ b)) (u := "default".toList)
    ⟨by decide, by decide⟩ ht
  rw [exportWords_append, exportWords_eq, List.reverse_append, List.reverse_append, List.append_assoc,
    List.append_assoc]
  exact (h1.trans h2).trans h3

theorem isInert_of_mem_exportWords {gap : Text} (hspace : ∀ c ∈ gap, isSpace c)
    (hline : '\n' ∉ exportWords gap) (hx : x ∈ exportWords gap) : isInert x := by
  have hn : x ≠ '\n' := by
    rintro rfl
    exact hline hx
  have hletter : ∀ c ∈ "export".toList ++ "default".toList, isInert c :=
    List.all_eq_true.mp (by decide)
  rw [exportWords_eq, List.mem_append, List.mem_append] at hx
  rcases hx with (hx | hx) | hx
  · exact hletter x (List.mem_append_left _ hx)
  · rcases isSpace_iff.mp (hspace x hx) with rfl | rfl | rfl | rfl | rfl
    all_goals first | exact absurd rfl hn | decide
  · exact hletter x (List.mem_append_right _ hx)

/-- **The declaration may take the place of the words**: what comes before is read as it was. -/
theorem silent_declaration {gap : Text} (hspace : ∀ c ∈ gap, isSpace c)
    (hline : '\n' ∉ exportWords gap)
    (h : Silent (Cursor.start (p ++ (exportWords gap ++ t))) ⟨p.reverse, exportWords gap ++ t⟩) :
    Silent (Cursor.start (p ++ (declaration ++ t))) ⟨declaration.reverse ++ p.reverse, t⟩ := by
  have hinert := fun x => isInert_of_mem_exportWords (x := x) hspace hline
  have hwords : exportWords gap = 'e' :: ("xport".toList ++ gap ++ "default".toList) := rfl
  have hdecl : declaration = 'c' :: "onst __sfc_main =".toList := by decide
  have hfree : ∀ x ∈ declaration, isInert x := List.all_eq_true.mp (by decide)
  have hstill : Still declaration := still_of_mute (by decide +kernel)
  rw [hwords] at h hinert
  rw [hdecl] at hfree
  have hreplace := continues_inert hinert hfree (by decide) (by decide) t
  have hbefore : Silent ⟨[], p ++ ('c' :: "onst __sfc_main =".toList ++ t)⟩ ⟨p.reverse, _⟩ :=
    Run.continues (v := []) tailed_true hreplace ?_ trivial h
  · rw [← hdecl] at hbefore
    exact hbefore.trans (hstill p.reverse t)
  · intro b u _ _ hn ha
    exact hn (atDefault_append (by decide) (by decide) ha _)

/-! ### The lines of a script -/

/-- A script and its lines have the same default exports. -/
theorem exportsAt_of_line {n : Nat} (h : ExportsAt (line s) n) : ExportsAt s n := by
  obtain ⟨d, hw, hd, rfl⟩ := exportsAt_iff_walk.mp h
  obtain ⟨u, hu⟩ := exists_cons_of_atDefault hd
  exact exportsAt_front apart_newline hw (by rw [hu, List.length_cons]; simp) hd

/-- The places in a script are places of its lines, whatever follows. -/
theorem walk_line (hc : Closed (line s)) (h : Walk (Cursor.start s) [] ⟨b, v⟩) (hv : v ≠ [])
    (t : Text) : Walk (Cursor.start (line s ++ t)) [] ⟨b, line v ++ t⟩ := by
  have hwhole : s = b.reverse ++ v := h.onward.whole_eq.symm
  rw [hwhole] at h
  have hline : Walk ⟨[], b.reverse ++ line v⟩ [] ⟨b, line v⟩ :=
    Walk.continues (v := []) tailed_true (continues_newline hv) trivial h
  have hs : line s = b.reverse ++ line v := by rw [hwhole, line, line, List.append_assoc]
  have hend := hc.walk t
  rw [← List.append_nil (line s).reverse] at hend
  exact walk_extend hend (hs ▸ hline)

/-- A run is silent if it does not meet the one default export of the script. -/
theorem silent_of_once {d₀ d e : Cursor} (honce : ∀ n, ExportsAt s n → n = d₀.offset)
    (ht : Apart t) (h₀ : Walk (Cursor.start (line s ++ t)) [] d₀)
    (hd : Walk (Cursor.start (line s ++ t)) [] d) (h : Walk d [] e)
    (hle : t.length ≤ e.ahead.length)
    (hne : ∀ f, d.Onward f → e.ahead.length < f.ahead.length → f.ahead.length ≠ d₀.ahead.length) :
    Silent d e := by
  refine run_of_walk h fun f hf hlt ha => hne f hf.onward hlt ?_
  have hw := hd.trans hf
  have hoffset := honce _ (exportsAt_of_line (exportsAt_front ht hw (by omega) ha))
  rw [Cursor.eq_of_offset_eq (hw.onward.whole_eq.trans h₀.onward.whole_eq.symm) hoffset]

/-! ### The code of a script -/

theorem silent_of_none (hc : Closed (line s)) (hs : Silent (Cursor.start s) (Cursor.start s).finish)
    (t : Text) :
    Silent (Cursor.start (line (s ++ '\n' :: emptyMain) ++ t))
      ⟨(line (s ++ '\n' :: emptyMain)).reverse, t⟩ := by
  have hend : (Cursor.start s).finish.ahead = [] := List.drop_length
  have hsealed : Sealed s := by
    refine ⟨hc, fun n hn => ?_⟩
    have hmem := exportsAt_iff_mem.mp (exportsAt_of_line hn)
    rw [defaultExports, hs.defaultExportsFrom_eq, defaultExportsFrom_nil hend] at hmem
    exact absurd hmem List.not_mem_nil
  have hstill : Still (line emptyMain) := (still_of_mute (by decide +kernel)).line
  have hlines : line (s ++ '\n' :: emptyMain) = line s ++ line emptyMain := by simp [line]
  have hscript := hsealed.silent (t := line emptyMain ++ t)
    (apart_of_head? (y := 'c') rfl (by decide) (by decide))
  rw [hlines, List.append_assoc, List.reverse_append]
  exact hscript.trans (hstill _ t)

/-- A script with a default export after `p`, its words on one line, and a value that does not start
with a regular expression. -/
structure Exporting (p gap u : Text) : Prop where
  walk : Walk (Cursor.start (p ++ (exportWords gap ++ u))) [] ⟨p.reverse, exportWords gap ++ u⟩
  blank : gap ≠ []
  space : ∀ c ∈ gap, isSpace c
  behind : NoWord p.reverse
  line : '\n' ∉ exportWords gap
  word : NoWord u
  value : ¬ startsRegex u

theorem FoundAt.exporting {d e : Cursor} (h : FoundAt (Cursor.start s) d e) :
    ∃ p gap u, Exporting p gap u ∧ s = p ++ (exportWords gap ++ u) ∧
      bindMain s = p ++ (declaration ++ u) := by
  obtain ⟨gap, u, hahead, hgap, hspace, hb, hu, rfl⟩ := afterDefault?_eq_some_iff.mp h.words
  have hval : (d.advance (exportWords gap).length).ahead = u := by
    rw [Cursor.ahead_advance, hahead, List.drop_left]
  have hbind : bindMain s = d.behind.reverse ++ (declaration ++ u) := by
    rw [bindMain, h.found, declaration_eq]
    simp only [hval, List.append_assoc]
  have hwalk := h.silent.walk
  have hline := h.line
  have hvalue := h.value
  rw [hval] at hline hvalue
  obtain ⟨b, v⟩ := d
  dsimp only at hahead hline hb hbind
  subst hahead
  rw [List.length_append, Nat.add_sub_cancel, List.take_left] at hline
  have hs : s = b.reverse ++ (exportWords gap ++ u) := hwalk.onward.whole_eq.symm
  refine ⟨b.reverse, gap, u, ⟨?_, hgap, hspace, ?_, hline, hu, hvalue⟩, hs, hbind⟩
  · rwa [← hs, List.reverse_reverse]
  · rwa [List.reverse_reverse]

theorem line_parts (p w u t : Text) : line (p ++ (w ++ u)) ++ t = p ++ (w ++ (line u ++ t)) := by
  simp only [line, List.append_assoc]

theorem line_parts_nil (w u t : Text) : line (w ++ u) ++ t = w ++ (line u ++ t) := line_parts [] w u t

theorem reverse_line_parts (p w u : Text) :
    (line (p ++ (w ++ u))).reverse = (line u).reverse ++ (w.reverse ++ p.reverse) := by
  simp only [line, List.reverse_append, List.append_assoc]

/-- **The lines of a script with its default export bound** are passed silently. -/
theorem Exporting.silent {gap : Text} (h : Exporting p gap u)
    (hc : Closed (Component.line (p ++ (exportWords gap ++ u))))
    (honce : ∀ m n, ExportsAt (p ++ (exportWords gap ++ u)) m →
      ExportsAt (p ++ (exportWords gap ++ u)) n → m = n) (ht : t.head? = some '_') :
    Silent (Cursor.start (Component.line (p ++ (declaration ++ u)) ++ t))
      ⟨(Component.line (p ++ (declaration ++ u))).reverse, t⟩ := by
  have hnext : NoWord (Component.line u ++ t) := by
    rw [Component.line, List.append_assoc]
    exact h.word.append (noWord_cons (by decide) t)
  have hapart : Apart t := apart_of_head? ht (by decide) (by decide)
  -- the way through the script leads to the words, past them and to the end
  have hbefore := walk_line hc h.walk (exportWords_ne_nil gap u) t
  rw [line_parts_nil (exportWords gap)] at hbefore
  have hwords := hbefore.trans (walk_exportWords h.blank h.space hnext)
  have hend := hc.walk t
  rw [reverse_line_parts] at hend
  have hafter := walk_of_walk hwords hend (by simp)
  -- the one default export is at the words
  have honly : ∀ n, ExportsAt (p ++ (exportWords gap ++ u)) n →
      n = (⟨p.reverse, exportWords gap ++ (Component.line u ++ t)⟩ : Cursor).offset := by
    refine fun n hn => honce _ _ hn (exportsAt_iff_walk.mpr ⟨_, h.walk, ?_, rfl⟩)
    exact atDefault_iff.mpr ⟨gap, u, rfl, h.blank, h.space, h.behind, h.word⟩
  have hlength : (Component.line u ++ t).length <
      (exportWords gap ++ (Component.line u ++ t)).length := by
    rw [@List.length_append _ (exportWords gap), length_exportWords]
    exact Nat.lt_add_of_pos_left (Nat.add_pos_left (by decide) _)
  have hfront : Silent _ _ := silent_of_once honly hapart hbefore Walk.stay hbefore
    (by simp; omega) fun f _ hlt => Nat.ne_of_gt hlt
  have hback : Silent _ _ := silent_of_once honly hapart hbefore hwords hafter (Nat.le_refl _)
    fun f hf _ => Nat.ne_of_lt (Nat.lt_of_le_of_lt hf.length_le hlength)
  rw [line_parts] at hfront ⊢
  rw [reverse_line_parts]
  have hvalue : ¬ startsRegex (Component.line u ++ t) := by
    obtain ⟨w, rfl⟩ := List.head?_eq_some_iff.mp ht
    rw [Component.line, List.append_assoc]
    exact startsRegex_line (by decide) (by decide) h.value
  exact (silent_declaration h.space h.line hfront).trans
    (Silent.rebind (g := []) ⟨by simp, fun _ => hnext⟩ hvalue hback)

/-- A script that the search reads as its lexemes do, with one default export at most, after whose
last line a lexeme starts. -/
structure Readable (s : Text) : Prop where
  legible : legible s
  closed : Closed (line s)
  once : ∀ m n, ExportsAt s m → ExportsAt s n → m = n

theorem Readable.silent (h : Readable s) (ht : t.head? = some '_') :
    Silent (Cursor.start (line (bindMain s) ++ t)) ⟨(line (bindMain s)).reverse, t⟩ := by
  rcases found_of_legibleFrom h.legible with ⟨d, e, hf⟩ | ⟨hs, hnone⟩
  · obtain ⟨p, gap, u, hexport, rfl, hbind⟩ := hf.exporting
    rw [hbind]
    exact hexport.silent h.closed h.once ht
  · have hbind : bindMain s = s ++ '\n' :: emptyMain := by rw [bindMain, hnone]
    rw [hbind]
    exact silent_of_none h.closed hs t

theorem sealed_of_silent {script : Option Block} (hc : compileScript script = .ok code)
    (hs : ∀ t, t.head? = some '_' →
      Silent (Cursor.start (line code ++ t)) ⟨(line code).reverse, t⟩) : Sealed code :=
  sealed_of_exportsOnce (exportsOnce_of_silent (d := plain script) hc hs (toModule_plain hc))

theorem sealed_emptyMain : Sealed emptyMain := by
  have hc : compileScript none = .ok emptyMain := rfl
  refine sealed_of_silent hc fun t _ => ?_
  have hstill : Still (line emptyMain) := (still_of_mute (by decide +kernel)).line
  have := hstill [] t
  rwa [List.append_nil] at this

/-! ### Component files -/

/-- **One default export.** The last line is the only default export of all modules that are made of
a script, whatever the file name and the other blocks are, exactly when the code of the script is
sealed. It is sealed if the script is readable. -/
theorem sealed_iff_exportsOnce {source : Text} {d : Descriptor}
    (hd : Descriptor.parse source = .ok d) (hc : compileScript d.script = .ok code) :
    (Sealed code ↔ ∀ other e, Descriptor.parse other = .ok e →
      e.script.map Block.content = d.script.map Block.content →
      ∀ file id m, assemble file id other = .ok m → ExportsOnce m) ∧
    ((∀ b ∈ d.script, Readable (Text.trim b.content)) → Sealed code) := by
  have hnone : d.script = none → Sealed code := by
    intro hs
    rw [hs] at hc
    exact Except.ok.inj hc ▸ sealed_emptyMain
  refine ⟨⟨fun h other e he hcontent file id m hm => ?_, fun h => ?_⟩, fun h => ?_⟩
  · have hm := (assemble_eq_ok_iff he).mp hm
    obtain ⟨code', hc'⟩ := exists_code_of_toModule hm
    obtain rfl := code_eq hc hc' hcontent
    exact exportsOnce_of_sealed hc' h hm
  · cases hs : d.script with
    | none => exact hnone hs
    | some b =>
      -- the script alone, with the id that shows whether it is sealed
      have hpage := parse_scriptPage (enclosed_of_parse hd b hs)
      rw [hs] at hc h
      rw [code_of_compileScript hc]
      refine sealed_of_exportsOnce (h _ _ hpage rfl [] probeId _ ?_)
      exact (assemble_eq_ok_iff hpage).mpr (toModule_plain (compileScript_bare b.content 8))
  · cases hs : d.script with
    | none => exact hnone hs
    | some b =>
      rw [hs] at hc
      have hcode := code_of_compileScript hc
      exact sealed_of_silent hc fun t ht => hcode ▸ (h b hs).silent ht

/-- A script with quotes in a comment, a slash in a regular expression and the words in a string. -/
def marked : Text :=
  "// don\x27t\nconst r = /[/]/, t = \x60$\x7br\x7d\x60\nexport default \x27export default\x27".toList

theorem readable_marked : Readable marked where
  legible := by decide +kernel
  closed := by decide +kernel
  once m n hm hn := by
    have hall : defaultExports marked = [37] := by decide +kernel
    rw [exportsAt_iff_mem, hall, List.mem_singleton] at hm hn
    rw [hm, hn]

/-- A component with this script and a style. -/
def markedPage : Text := "<script>".toList ++ marked ++ "</script><style>it's</style>".toList

theorem sealed_iff_exportsOnce_marked : ∃ d code, Descriptor.parse markedPage = .ok d ∧
    compileScript d.script = .ok code ∧ Sealed code ∧
    ∀ file id, ∃ m, assemble file id markedPage = .ok m ∧ ExportsOnce m := by
  have hd : Descriptor.parse markedPage =
      .ok ⟨none, some ⟨marked, [], 8⟩, [⟨"it's".toList, [], 92⟩]⟩ := by decide +kernel
  have hc := compileScript_bare marked 8
  have htrim : Text.trim marked = marked := by decide +kernel
  obtain ⟨hiff, hreadable⟩ := sealed_iff_exportsOnce hd hc
  have hsealed := hreadable fun b hb => by
    obtain rfl := Option.some.inj hb
    exact htrim.symm ▸ readable_marked
  refine ⟨_, _, hd, hc, hsealed, fun file id => ?_⟩
  obtain ⟨m, hm⟩ : ∃ m, Descriptor.toModule
      ⟨none, some ⟨marked, [], 8⟩, [⟨"it's".toList, [], 92⟩]⟩ file id = .ok m := by
    rw [Descriptor.toModule, hc]
    exact ⟨_, rfl⟩
  have hm := (assemble_eq_ok_iff hd).mpr hm
  exact ⟨m, hm, hiff.mp hsealed _ _ hd rfl file id m hm⟩

/-- A quote in a regular expression is taken for the start of a string, and the module gets a second
default export. -/
theorem exists_exported_twice :
    ∃ m, (Descriptor.parse "<script>const q = /\x27/;\nexport default \x7b\x7d</script>".toList).map
        (fun d => d.script.map Block.content) =
          .ok (some "const q = /\x27/;\nexport default \x7b\x7d".toList) ∧
      (∀ i j, ExportsAt "const q = /\x27/;\nexport default \x7b\x7d".toList i →
        ExportsAt "const q = /\x27/;\nexport default \x7b\x7d".toList j → i = j) ∧
      assemble ['f'] (idOf ['f'])
        "<script>const q = /\x27/;\nexport default \x7b\x7d</script>".toList = .ok m ∧
      ¬ ExportsOnce m := by
  refine ⟨("const q = /\x27/;\nexport default \x7b\x7d\nconst __sfc_main = \x7b\x7d;\n" ++
    "__sfc_main.__hmrId = \"f\";\n__sfc_main.__file = \"f\";\n" ++
    "export default __sfc_main;\n").toList, by decide +kernel, fun i j hi hj => ?_,
    by decide +kernel, ?_⟩
  · have hall : defaultExports "const q = /\x27/;\nexport default \x7b\x7d".toList = [15] := by
      decide +kernel
    rw [exportsAt_iff_mem, hall, List.mem_singleton] at hi hj
    rw [hi, hj]
  · rintro ⟨body, -, h⟩
    have h1 := (h 15).mp (by decide +kernel)
    have h2 := (h 107).mp (by decide +kernel)
    exact absurd (h1.trans h2.symm) (by decide)

end Unbundled.Component
