import Unbundled.Proofs.Component.Placement
import Unbundled.Proofs.Component.Templates

/-! # Text after a component

Each search of the reader that has come to an end in a text ends at the same place when more text
follows: the lemmas `…_front` say so. A block that has been read is therefore read again, whatever
follows. Only a mark `<` at the very end of the text may be read in another way, and no block has been
read after it.

* `parseFrom_front`: the reader of a longer text comes to the blocks of its front and goes on from there.
* `parse_append`: text after a component changes none of its blocks. -/

namespace Unbundled.Component

variable {b : Block} {cause : Cause} {d d' e : Descriptor} {depth n pos : Nat} {quote : Option Char}
  {inside s t tag u : Text}

/-! ### Searches -/

theorem cut?_more {pat : Text} (hp : pat ≠ []) (h : Text.cut? pat t = some (s, u)) (v : Text) :
    Text.cut? pat (t ++ v) = some (s, u ++ v) := by
  have hfront := Text.cut?_front hp h (u ++ v)
  rwa [← List.append_assoc, ← List.append_assoc, ← Text.append_of_cut? h] at hfront

theorem tagEnd?_front (h : tagEnd? quote t = some (s, u)) (v : Text) :
    tagEnd? quote (t ++ v) = some (s, u ++ v) := by
  induction t generalizing quote s with
  | nil => exact absurd h (by simp [tagEnd?])
  | cons c t ih =>
    cases quote with
    | some q =>
      obtain ⟨⟨s, u⟩, ht, he⟩ := Option.map_eq_some_iff.mp h
      obtain ⟨rfl, rfl⟩ := Prod.mk.inj he
      rw [List.cons_append, tagEnd?, ih ht]
      rfl
    | none =>
      by_cases hc : c = '>'
      · rw [tagEnd?, if_pos hc] at h
        obtain ⟨rfl, rfl⟩ := Prod.mk.inj (Option.some.inj h)
        rw [List.cons_append, tagEnd?, if_pos hc]
      · rw [tagEnd?_char hc] at h
        obtain ⟨⟨s, u⟩, ht, he⟩ := Option.map_eq_some_iff.mp h
        obtain ⟨rfl, rfl⟩ := Prod.mk.inj he
        rw [List.cons_append, tagEnd?_char hc, ih ht]
        rfl

/-- The tag of an inner template is in the text. -/
theorem le_length_of_tagEnd? (h : tagEnd? quote (t.drop n) = some (s, u)) : n ≤ t.length := by
  by_contra hlt
  rw [List.drop_eq_nil_of_le (by omega)] at h
  exact absurd h (by simp [tagEnd?])

/-- The closing tag that ends a template is in the text. -/
theorem append_of_templateSize? (h : templateSize? depth t = some n) :
    ∃ s u, t = s ++ (templateClose ++ u) ∧ s.length = n := by
  fun_induction templateSize? depth t generalizing n with
  | case1 => exact absurd h (by simp)
  | case2 => exact absurd h (by simp)
  | case3 depth t before after hcut k hk inside beyond htag ih =>
    obtain ⟨m, hm, rfl⟩ := Option.map_eq_some_iff.mp h
    obtain ⟨s, u, rfl, rfl⟩ := ih hm
    refine ⟨t.take (k + templateOpen.length) ++ (inside ++ '>' :: s), u, ?_, ?_⟩
    · rw [List.append_assoc, List.append_assoc, List.cons_append, ← append_of_tagEnd? htag,
        List.take_append_drop]
    · have hle := le_length_of_tagEnd? htag
      rw [List.length_append, List.length_take, List.length_append, List.length_cons]
      omega
  | case4 t before after hcut hn =>
    exact ⟨before, after, (Text.append_of_cut? hcut).trans (List.append_assoc _ _ _),
      Option.some.inj h⟩
  | case5 t before after hcut hn depth ih =>
    obtain ⟨m, hm, rfl⟩ := Option.map_eq_some_iff.mp h
    obtain ⟨s, u, rfl, rfl⟩ := ih hm
    refine ⟨before ++ templateClose ++ s, u, ?_, ?_⟩
    · rw [Text.append_of_cut? hcut, List.append_assoc _ s]
    · rw [List.length_append, List.length_append]

theorem templateSize?_front (h : templateSize? depth t = some n) (v : Text) :
    templateSize? depth (t ++ v) = some n := by
  fun_induction templateSize? depth t generalizing n with
  | case1 => exact absurd h (by simp)
  | case2 => exact absurd h (by simp)
  | case3 depth t before after hcut k hk inside beyond htag ih =>
    obtain ⟨m, hm, rfl⟩ := Option.map_eq_some_iff.mp h
    simp only [dite_eq_ite] at ih
    rw [templateSize?_eq, cut?_more (by decide) hcut, Option.bind_some]
    dsimp only
    rw [hk, Option.elim_some, List.drop_append_of_le_length (le_length_of_tagEnd? htag),
      tagEnd?_front htag, Option.bind_some]
    dsimp only
    rw [ih hm, Option.map_some]
  | case4 t before after hcut hn =>
    rw [templateSize?_of_nestedOpen? (cut?_more (by decide) hcut v) hn]
    exact h
  | case5 t before after hcut hn depth ih =>
    obtain ⟨m, hm, rfl⟩ := Option.map_eq_some_iff.mp h
    rw [templateSize?_of_nestedOpen? (cut?_more (by decide) hcut v) hn, closeAt?, ih hm]
    rfl

/-! ### Blocks -/

theorem contentOf?_front (h : contentOf? tag t = some (s, u)) (v : Text) :
    contentOf? tag (t ++ v) = some (s, u ++ v) := by
  unfold contentOf? at h ⊢
  split at h
  · obtain ⟨n, hn, he⟩ := Option.map_eq_some_iff.mp h
    obtain ⟨rfl, rfl⟩ := Prod.mk.inj he
    obtain ⟨s, u, hlen, rfl⟩ := append_of_templateSize? hn
    have hle := congrArg List.length hlen
    rw [List.length_append, List.length_append] at hle
    rw [if_pos ‹_›, templateSize?_front hn, Option.map_some, List.take_append_of_le_length (by omega),
      List.drop_append_of_le_length (by omega)]
  · rw [if_neg ‹_›]
    exact cut?_more (List.append_ne_nil_of_right_ne_nil _ (by decide)) h v

/-- A name that ends within a text ends there in a longer one. -/
theorem span_append {p : Char → Bool} (h : t.dropWhile p ≠ []) (v : Text) :
    (t ++ v).takeWhile p = t.takeWhile p ∧ (t ++ v).dropWhile p = t.dropWhile p ++ v := by
  induction t with
  | nil => exact absurd rfl h
  | cons c t ih =>
    by_cases hc : p c
    · rw [List.dropWhile_cons_of_pos hc] at h
      obtain ⟨htake, hdrop⟩ := ih h
      rw [List.cons_append, List.takeWhile_cons_of_pos hc, List.takeWhile_cons_of_pos hc,
        List.dropWhile_cons_of_pos hc, List.dropWhile_cons_of_pos hc, htake, hdrop]
      exact ⟨rfl, rfl⟩
    · rw [List.cons_append, List.takeWhile_cons_of_neg hc, List.takeWhile_cons_of_neg hc,
        List.dropWhile_cons_of_neg hc, List.dropWhile_cons_of_neg hc]
      exact ⟨rfl, rfl⟩

theorem ne_nil_of_tagEnd? (h : tagEnd? quote t = some (s, u)) : t ≠ [] := by
  rw [append_of_tagEnd? h]
  exact List.append_ne_nil_of_right_ne_nil _ (List.cons_ne_nil _ _)

/-- **A block is read again**, whatever follows it. -/
theorem readBlock_front (h : readBlock pos t = .ok (tag, b, u)) (v : Text) :
    readBlock pos (t ++ v) = .ok (tag, b, u ++ v) := by
  unfold readBlock at h ⊢
  dsimp only at h ⊢
  cases htag : tagEnd? none (t.dropWhile isTagChar) with
  | none =>
    rw [htag] at h
    exact absurd h (by simp)
  | some parts =>
    obtain ⟨inside, beyond⟩ := parts
    obtain ⟨htake, hdrop⟩ := span_append (ne_nil_of_tagEnd? htag) v
    rw [htag] at h
    rw [htake, hdrop, tagEnd?_front htag]
    dsimp only at h ⊢
    split at h
    · rw [if_pos ‹_›]
      simp only [Except.ok.injEq, Prod.mk.injEq] at h
      obtain ⟨rfl, rfl, rfl⟩ := h
      rfl
    · rw [if_neg ‹_›]
      cases hc : contentOf? (t.takeWhile isTagChar) beyond with
      | none =>
        rw [hc] at h
        exact absurd h (by simp)
      | some parts =>
        rw [hc] at h
        simp only [Except.ok.injEq, Prod.mk.injEq] at h
        obtain ⟨rfl, rfl, rfl⟩ := h
        rw [contentOf?_front hc]

/-- A block that is read bears the name after its mark. -/
theorem eq_takeWhile_of_readBlock (h : readBlock pos t = .ok (tag, b, u)) :
    tag = t.takeWhile isTagChar := by
  unfold readBlock at h
  dsimp only at h
  split at h
  · exact absurd h (by simp)
  · split at h
    · exact (Prod.mk.inj (Except.ok.inj h)).1.symm
    · split at h
      · exact absurd h (by simp)
      · exact (Prod.mk.inj (Except.ok.inj h)).1.symm

/-- A block that cannot be read is not closed. -/
theorem eq_unclosed_of_readBlock (h : readBlock pos t = .error cause) :
    cause = .unclosed (t.takeWhile isTagChar) pos := by
  unfold readBlock at h
  dsimp only at h
  split at h
  · exact (Except.error.inj h).symm
  · split at h
    · exact absurd h (by simp)
    · split at h
      · exact (Except.error.inj h).symm
      · exact absurd h (by simp)

/-! ### Files -/

/-- What reading a longer text makes of what has been read of its front: it goes on from the blocks that
were found there, and fails if they cannot stand together. -/
structure ReadsOn (r r' : Except Cause Descriptor) : Prop where
  ok : ∀ d, r = .ok d → ∃ pos u, r' = d.parseFrom pos u
  error : ∀ cause, r = .error cause → (∀ tag pos, cause ≠ .unclosed tag pos) → r' = .error cause

theorem readsOn_ok (d : Descriptor) (pos : Nat) (u : Text) :
    ReadsOn (.ok d) (d.parseFrom pos u) where
  ok e he := ⟨pos, u, by rw [Except.ok.inj he]⟩
  error _ h := absurd h (by simp)

theorem readsOn_unclosed (tag : Text) (pos : Nat) (r : Except Cause Descriptor) :
    ReadsOn (.error (.unclosed tag pos)) r where
  ok _ h := absurd h (by simp)
  error _ h hne := absurd (Except.error.inj h).symm (hne tag pos)

theorem readsOn_error (cause : Cause) : ReadsOn (.error cause) (.error cause) where
  ok _ h := absurd h (by simp)
  error _ h _ := h

/-- A mark with a name after it starts a block. -/
theorem parseFrom_name (hcut : Text.cut? ['<'] t = some (s, u)) (hname : u.takeWhile isTagChar ≠ []) :
    d.parseFrom pos t = (readBlock (pos + Text.bytes s) u).bind fun (tag, b, w) =>
      (d.add tag b).bind fun d => d.parseFrom (pos + Text.bytes t - Text.bytes w) w := by
  have hopen : ¬ "!--".toList <+: u := by
    rintro ⟨w, rfl⟩
    exact hname rfl
  rw [parseFrom_of_cut? hcut, Descriptor.parseMark, if_neg (mt List.isPrefixOf_iff_prefix.mp hopen),
    if_neg (mt List.isEmpty_iff.mp hname)]

theorem takeWhile_append_ne_nil {p : Char → Bool} (h : u.takeWhile p ≠ []) (v : Text) :
    (u ++ v).takeWhile p ≠ [] := by
  cases u with
  | nil => exact absurd rfl h
  | cons c u =>
    by_cases hc : p c
    · rw [List.cons_append, List.takeWhile_cons_of_pos hc]
      exact List.cons_ne_nil _ _
    · exact absurd (List.takeWhile_cons_of_neg hc) h

/-- A mark that starts nothing does so in a longer text, too, if another one follows it. -/
theorem parseFrom_stray (hcut : Text.cut? ['<'] t = some (s, u)) (hopen : ¬ "!--".toList <+: u)
    (hname : u.takeWhile isTagChar = []) (hmark : '<' ∈ u) (v : Text) :
    d.parseFrom pos (t ++ v) = d.parseFrom (pos + Text.bytes s + 1) (u ++ v) := by
  have hopen' : ¬ "!--".toList <+: u ++ v := by
    intro h
    rcases Nat.le_total "!--".toList.length u.length with hle | hle
    · exact hopen (List.prefix_of_prefix_length_le h (List.prefix_append u v) hle)
    · -- no further mark is part of the mark for a comment
      have hu := List.prefix_of_prefix_length_le (List.prefix_append u v) h hle
      exact absurd (hu.subset hmark) (by decide)
  have hname' : (u ++ v).takeWhile isTagChar = [] := by
    cases u with
    | nil => exact absurd hmark List.not_mem_nil
    | cons c u =>
      have hc : ¬ isTagChar c := fun hc =>
        absurd hname (by rw [List.takeWhile_cons_of_pos hc]; exact List.cons_ne_nil _ _)
      rw [List.cons_append, List.takeWhile_cons_of_neg hc]
  rw [parseFrom_of_cut? (cut?_more (by decide) hcut v), Descriptor.parseMark,
    if_neg (mt List.isPrefixOf_iff_prefix.mp hopen'), if_pos (List.isEmpty_iff.mpr hname')]

/-- **The reader of a longer text** comes to the blocks of its front. -/
theorem parseFrom_front (d : Descriptor) (pos : Nat) (t v : Text) :
    ReadsOn (d.parseFrom pos t) (d.parseFrom pos (t ++ v)) := by
  fun_induction Descriptor.parseFrom d pos t with
  | case1 d pos t hcut => exact readsOn_ok d pos (t ++ v)
  | case2 => exact readsOn_unclosed _ _ _
  | case3 d pos t before after hcut offset hopen inside beyond hclose ih =>
    have hopen' : "!--".toList <+: after ++ v :=
      (List.isPrefixOf_iff_prefix.mp hopen).trans (List.prefix_append after v)
    rw [parseFrom_of_cut? (cut?_more (by decide) hcut v), Descriptor.parseMark,
      if_pos (List.isPrefixOf_iff_prefix.mpr hopen'), cut?_more (by decide) hclose v]
    exact ih
  | case4 d pos t before after hcut offset hopen hname ih =>
    by_cases hmark : '<' ∈ after
    · rw [parseFrom_stray hcut (mt List.isPrefixOf_iff_prefix.mpr hopen) (List.isEmpty_iff.mp hname)
        hmark v]
      exact ih
    · -- the mark is the last one, so the text ends here
      have hcut' : Text.cut? ['<'] after = none :=
        Text.cut?_eq_none_iff.mpr fun hin => hmark (hin.subset List.mem_cons_self)
      rw [parseFrom_of_cut?_eq_none hcut']
      exact readsOn_ok d pos (t ++ v)
  | case5 d pos t before after hcut offset hopen hname cause hread =>
    rw [eq_unclosed_of_readBlock hread]
    exact readsOn_unclosed _ _ _
  | case6 d pos t before after hcut offset hopen hname tag block beyond hread cause hadd =>
    rw [parseFrom_name (cut?_more (by decide) hcut v)
      (takeWhile_append_ne_nil (mt List.isEmpty_iff.mpr hname) v), readBlock_front hread]
    simp only [Except.bind, hadd]
    exact readsOn_error cause
  | case7 d pos t before after hcut offset hopen hname tag block beyond hread e hadd ih =>
    have hpos : pos + Text.bytes (t ++ v) - Text.bytes (beyond ++ v) =
        pos + Text.bytes t - Text.bytes beyond := by
      rw [Text.bytes_append, Text.bytes_append]
      omega
    rw [parseFrom_name (cut?_more (by decide) hcut v)
      (takeWhile_append_ne_nil (mt List.isEmpty_iff.mpr hname) v), readBlock_front hread]
    simp only [Except.bind, hadd, hpos]
    exact ih

/-! ### The blocks of a longer text -/

/-- All blocks of a file are blocks of another one, and its styles are the first ones there. -/
structure Extends (d e : Descriptor) : Prop where
  template : ∀ b ∈ d.template, b ∈ e.template
  script : ∀ b ∈ d.script, b ∈ e.script
  styles : d.styles <+: e.styles

theorem mem_of_toList_append {o o' : Option Block} {bs : List Block} (h : o.toList ++ bs = o'.toList) :
    ∀ b ∈ o, b ∈ o' := by
  intro b hb
  refine Option.mem_toList.mp ?_
  rw [← h]
  exact List.mem_append_left bs (Option.mem_toList.mpr hb)

/-- Reading on keeps the blocks that have been found. -/
theorem extends_of_parseFrom (h : d.parseFrom pos t = .ok e) : Extends d e := by
  obtain ⟨bs, -, hbs⟩ := exists_laid_of_parseFrom h
  exact ⟨mem_of_toList_append hbs.template, mem_of_toList_append hbs.script, ⟨_, hbs.styles⟩⟩

/-- A failure that no further text mends: two blocks of a kind that a file has one of, or a script marked
as setup. -/
def Cause.IsFinal (c : Cause) : Prop := (∃ tag, c = .duplicate tag) ∨ c = .scriptSetup

theorem parse_eq_error_iff {file : Text} (hc : cause.IsFinal) : parse file t = .error ⟨file, cause⟩ ↔
    Descriptor.parseFrom ⟨none, none, []⟩ 0 t = .error cause := by
  have hne : cause ≠ .noBlock := by
    rintro rfl
    obtain ⟨_, h⟩ | h := hc <;> exact absurd h (by simp)
  unfold parse Descriptor.parse
  cases Descriptor.parseFrom ⟨none, none, []⟩ 0 t with
  | error c => simp [Except.mapError]
  | ok d =>
    dsimp only
    split <;> simp [Except.mapError, Ne.symm hne]

/-- **Text after a component** changes none of its blocks. -/
theorem parse_append (file s t : Text) :
    (∀ cause, cause.IsFinal → parse file s = .error ⟨file, cause⟩ →
      parse file (s ++ t) = .error ⟨file, cause⟩) ∧
    ∀ d, parse file s = .ok d → (∃ fault, parse file (s ++ t) = .error fault) ∨
      ∃ e, parse file (s ++ t) = .ok e ∧ Extends d e := by
  obtain ⟨hok, herror⟩ := parseFrom_front ⟨none, none, []⟩ 0 s t
  refine ⟨fun cause hc h => ?_, fun d h => ?_⟩
  · rw [parse_eq_error_iff hc] at h ⊢
    refine herror cause h ?_
    rintro tag pos rfl
    obtain ⟨_, h⟩ | h := hc <;> exact absurd h (by simp)
  · cases hlong : parse file (s ++ t) with
    | error fault => exact Or.inl ⟨fault, rfl⟩
    | ok e =>
      obtain ⟨hfrom, -⟩ := descriptor_parse_eq_ok_iff.mp (parse_eq_ok_iff.mp h)
      obtain ⟨hfrom', -⟩ := descriptor_parse_eq_ok_iff.mp (parse_eq_ok_iff.mp hlong)
      obtain ⟨pos, u, hu⟩ := hok d hfrom
      exact Or.inr ⟨e, rfl, extends_of_parseFrom (hu.symm.trans hfrom')⟩

/-- A file whose last mark becomes one for a comment when more text follows. -/
def openPage : Text := "<style>a</style><script>x</script><!-".toList

theorem parse_append_open :
    let d : Descriptor := ⟨none, some ⟨"x".toList, [], 24⟩, [⟨"a".toList, [], 7⟩]⟩
    let setup : Text := "<script setup></script>".toList
    parse "f".toList openPage = .ok d ∧
    (∃ e, parse "f".toList (openPage ++ "- <style/> --><style/>".toList) = .ok e ∧ Extends d e) ∧
    parse "f".toList (setup ++ "<template>".toList) = .error ⟨"f".toList, .scriptSetup⟩ := by
  intro d setup
  have hd : parse "f".toList openPage = .ok d := parse_eq_ok_iff.mpr (by decide +kernel)
  refine ⟨hd, ?_, ?_⟩
  · refine ((parse_append _ _ "- <style/> --><style/>".toList).2 d hd).resolve_left ?_
    rintro ⟨fault, hf⟩
    have hok : ∃ e, Descriptor.parse (openPage ++ "- <style/> --><style/>".toList) = .ok e :=
      ⟨⟨none, some ⟨"x".toList, [], 24⟩, [⟨"a".toList, [], 7⟩, ⟨[], [], 59⟩]⟩, by decide +kernel⟩
    obtain ⟨e, he⟩ := hok
    rw [parse_eq_ok_iff.mpr he] at hf
    exact absurd hf (by simp)
  · have hsetup : Cause.IsFinal .scriptSetup := Or.inr rfl
    exact (parse_append _ setup "<template>".toList).1 _ hsetup
      ((parse_eq_error_iff hsetup).mpr (by decide +kernel))

end Unbundled.Component
