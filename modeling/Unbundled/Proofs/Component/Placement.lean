import Mathlib.Data.List.Pairwise
import Unbundled.Proofs.Component.Listing

/-! # Where blocks stand

The blocks of a component file stand in its text one after another. Each starts right after the `>` of
its opening tag, and its content is the text from there on (`Laid`).

* `exists_laid_of_parseFrom`: what is read is a list of blocks laid out in the text.
* `parse_placed`: what this means for the blocks of a file. -/

namespace Unbundled.Component

/-- The byte offset of the end of the content. -/
def Block.stop (b : Block) : Nat := b.start + Text.bytes b.content

/-- All blocks of a file. -/
def Descriptor.blocks (d : Descriptor) : List Block :=
  d.template.toList ++ d.script.toList ++ d.styles

variable {b : Block} {bs : List (Text × Block)} {d d' : Descriptor} {n pos : Nat}
  {content s t u tag : Text}

/-! ### Blocks in a text -/

/-- **Blocks laid out** in a text that starts at byte `pos`: their contents stand there one after
another, each after a `>`. -/
def Laid (pos : Nat) (t : Text) : List (Text × Block) → Prop
  | [] => True
  | (_, b) :: bs => ∃ before after, t = before ++ '>' :: (b.content ++ after) ∧
      b.start = pos + Text.bytes before + 1 ∧ Laid b.stop after bs

theorem laid_append (s : Text) (h : Laid (pos + Text.bytes s) t bs) : Laid pos (s ++ t) bs := by
  cases bs with
  | nil => trivial
  | cons x bs =>
    obtain ⟨before, after, rfl, hstart, hbs⟩ := h
    refine ⟨s ++ before, after, (List.append_assoc _ _ _).symm, ?_, hbs⟩
    rw [hstart, Text.bytes_append, Nat.add_assoc pos]

theorem append_of_contentOf? (h : contentOf? tag t = some (content, u)) :
    ∃ close, t = content ++ (close ++ u) := by
  unfold contentOf? at h
  split at h
  · obtain ⟨n, -, he⟩ := Option.map_eq_some_iff.mp h
    obtain ⟨rfl, rfl⟩ := Prod.mk.inj he
    refine ⟨(t.drop n).take templateClose.length, ?_⟩
    rw [← List.drop_drop, List.take_append_drop, List.take_append_drop]
  · exact ⟨_, (Text.append_of_cut? h).trans (List.append_assoc _ _ _)⟩

/-- A block that is read after the mark at byte `pos`. -/
theorem append_of_readBlock (h : readBlock pos t = .ok (tag, b, u)) :
    ∃ before close, t = before ++ '>' :: (b.content ++ (close ++ u)) ∧
      b.start = pos + 1 + Text.bytes before + 1 := by
  unfold readBlock at h
  dsimp only at h
  split at h
  · exact absurd h (by simp)
  · rename_i inside beyond hend
    have happ : t = (t.takeWhile isTagChar ++ inside) ++ '>' :: beyond := by
      rw [List.append_assoc, ← append_of_tagEnd? hend, List.takeWhile_append_dropWhile]
    have hbytes := Text.bytes_append (t.takeWhile isTagChar) inside
    split at h
    · simp only [Except.ok.injEq, Prod.mk.injEq] at h
      obtain ⟨-, rfl, rfl⟩ := h
      exact ⟨_, [], happ, by dsimp only; omega⟩
    · split at h
      · exact absurd h (by simp)
      · rename_i content after hcontent
        simp only [Except.ok.injEq, Prod.mk.injEq] at h
        obtain ⟨-, rfl, rfl⟩ := h
        obtain ⟨close, rfl⟩ := append_of_contentOf? hcontent
        exact ⟨_, close, happ, by dsimp only; omega⟩

/-- The place after a comment. -/
theorem pos_comment (pos : Nat) (s t : Text) : pos + Text.bytes s + 1 + Text.bytes t + 3 =
    pos + Text.bytes (s ++ ['<'] ++ (t ++ "-->".toList)) := by
  have hmark : Text.bytes ['<'] = 1 := rfl
  have hclose : Text.bytes "-->".toList = 3 := rfl
  simp only [Text.bytes_append, hmark, hclose]
  omega

/-- **What is read of a text**: blocks laid out in it, added one after another. -/
theorem exists_laid_of_parseFrom (h : d.parseFrom pos t = .ok d') :
    ∃ bs, Laid pos t bs ∧ Collects d bs d' := by
  fun_induction Descriptor.parseFrom d pos t with
  | case1 d pos t hcut => exact ⟨[], trivial, collects_nil.mpr (Except.ok.inj h)⟩
  | case2 => exact absurd h (by simp)
  | case3 d pos t before after hcut offset hopen inside beyond hclose ih =>
    obtain ⟨bs, hlaid, hbs⟩ := ih h
    rw [pos_comment] at hlaid
    refine ⟨bs, ?_, hbs⟩
    rw [Text.append_of_cut? hcut, Text.append_of_cut? hclose, ← List.append_assoc]
    exact laid_append _ hlaid
  | case4 d pos t before after hcut offset hopen htag ih =>
    obtain ⟨bs, hlaid, hbs⟩ := ih h
    have hpos : offset + 1 = pos + Text.bytes (before ++ ['<']) := by
      have hmark : Text.bytes ['<'] = 1 := rfl
      simp only [Text.bytes_append, hmark, offset]
      omega
    rw [hpos] at hlaid
    refine ⟨bs, ?_, hbs⟩
    rw [Text.append_of_cut? hcut]
    exact laid_append _ hlaid
  | case5 => exact absurd h (by simp)
  | case6 => exact absurd h (by simp)
  | case7 d pos t before after hcut offset hopen htag tag block beyond hread e hadd ih =>
    obtain ⟨bs, hlaid, hbs⟩ := ih h
    obtain ⟨front, close, rfl, hstart⟩ := append_of_readBlock hread
    have happ := Text.append_of_cut? hcut
    have hmark : Text.bytes ['<'] = 1 := rfl
    have hangle : Char.utf8Size '>' = 1 := rfl
    have hpos : pos + Text.bytes t - Text.bytes beyond = block.stop + Text.bytes close := by
      rw [happ, Block.stop, hstart]
      simp only [Text.bytes_append, Text.bytes_cons, hmark, hangle, offset]
      omega
    rw [hpos] at hlaid
    refine ⟨(tag, block) :: bs, ⟨before ++ ['<'] ++ front, close ++ beyond, ?_, ?_,
      laid_append close hlaid⟩, collects_cons.mpr ⟨e, hadd, hbs⟩⟩
    · rw [happ, List.append_assoc _ front]
    · rw [hstart]
      simp only [Text.bytes_append, hmark, offset]
      omega

/-! ### The order of blocks -/

theorem Laid.lt_start (h : Laid pos t bs) : ∀ x ∈ bs, pos < x.2.start := by
  induction bs generalizing pos t with
  | nil => exact fun _ hx => absurd hx List.not_mem_nil
  | cons x bs ih =>
    obtain ⟨before, after, -, hstart, hbs⟩ := h
    intro y hy
    rcases List.mem_cons.mp hy with rfl | hy
    · omega
    · have := ih hbs y hy
      rw [Block.stop] at this
      omega

/-- Blocks that are laid out follow one another. -/
theorem Laid.pairwise (h : Laid pos t bs) : bs.Pairwise fun x y => x.2.stop < y.2.start := by
  induction bs generalizing pos t with
  | nil => exact .nil
  | cons x bs ih =>
    obtain ⟨before, after, -, hstart, hbs⟩ := h
    exact .cons (fun y hy => hbs.lt_start y hy) (ih hbs)

/-- A block that is laid out stands in the text. -/
theorem Laid.exists_parts {x : Text × Block} (h : Laid pos t bs) (hx : x ∈ bs) :
    ∃ before after, t = before ++ '>' :: (x.2.content ++ after) ∧
      x.2.start = pos + Text.bytes before + 1 := by
  induction bs generalizing pos t with
  | nil => exact absurd hx List.not_mem_nil
  | cons y bs ih =>
    obtain ⟨before, after, rfl, hstart, hbs⟩ := h
    rcases List.mem_cons.mp hx with rfl | hx
    · exact ⟨before, after, rfl, hstart⟩
    · obtain ⟨before', after', rfl, hstart'⟩ := ih hbs hx
      refine ⟨before ++ '>' :: (y.2.content ++ before'), after', by simp, ?_⟩
      have hangle : Char.utf8Size '>' = 1 := rfl
      rw [hstart', Block.stop, hstart]
      simp only [Text.bytes_append, Text.bytes_cons, hangle]
      omega

/-! ### The blocks of a file -/

/-- Two blocks have no place in common. -/
def Separate (b c : Block) : Prop := b.stop < c.start ∨ c.stop < b.start

instance : Std.Symm fun x y : Text × Block => Separate x.2 y.2 := ⟨fun _ _ => Or.symm⟩

/-- The blocks of a file by their names. -/
theorem Collects.blocks_eq (h : Collects ⟨none, none, []⟩ bs d) : d.blocks =
    named "template".toList bs ++ named "script".toList bs ++ named "style".toList bs := by
  rw [Descriptor.blocks, ← h.template, ← h.script, ← h.styles]
  rfl

/-- Blocks of three names are apart if all blocks are. -/
theorem separate_of_named {x y z : Text} (h : bs.Pairwise fun b c => Separate b.2 c.2) (hxy : x ≠ y)
    (hxz : x ≠ z) (hyz : y ≠ z) : (named x bs ++ named y bs ++ named z bs).Pairwise Separate := by
  have hcross : ∀ {x y : Text}, x ≠ y → ∀ b ∈ named x bs, ∀ c ∈ named y bs, Separate b c := by
    intro x y hne b hb c hc
    exact h.forall (mem_named.mp hb) (mem_named.mp hc) fun he => hne (Prod.mk.inj he).1
  refine List.pairwise_append.mpr ⟨List.pairwise_append.mpr ⟨named_pairwise x h, named_pairwise y h,
    hcross hxy⟩, named_pairwise z h, fun b hb => ?_⟩
  rcases List.mem_append.mp hb with hb | hb
  · exact hcross hxz b hb
  · exact hcross hyz b hb

/-- What is read of a file. -/
theorem exists_laid_of_parse {source : Text} (h : Descriptor.parse source = .ok d) :
    ∃ bs, Laid 0 source bs ∧ Collects ⟨none, none, []⟩ bs d :=
  exists_laid_of_parseFrom (descriptor_parse_eq_ok_iff.mp h).1

theorem pairwise_styles {source : Text} (h : Descriptor.parse source = .ok d) :
    d.styles.Pairwise fun b c => b.stop < c.start := by
  obtain ⟨bs, hlaid, hbs⟩ := exists_laid_of_parse h
  rw [← hbs.styles]
  exact named_pairwise _ hlaid.pairwise

/-- **The blocks of a file.** Each stands in the file at its offsets, right after a `>`, they have no
place in common, and the styles are in order. There is a template or a script, and the script is not
marked as setup. -/
theorem parse_placed {file source : Text} (h : parse file source = .ok d) :
    (∀ b ∈ d.blocks, ∃ before after,
      Text.splitAt? b.start source = some (before ++ ['>'], b.content ++ after) ∧
      Text.splitAt? b.stop source = some (before ++ '>' :: b.content, after)) ∧
    d.blocks.Pairwise (fun b c => b.stop < c.start ∨ c.stop < b.start) ∧
    d.styles.Pairwise (fun b c => b.stop < c.start) ∧
    (d.template.isSome ∨ d.script.isSome) ∧
    ∀ b ∈ d.script, b.hasAttr "setup".toList = false := by
  have hparse := parse_eq_ok_iff.mp h
  obtain ⟨bs, hlaid, hbs⟩ := exists_laid_of_parse hparse
  refine ⟨fun b hb => ?_, ?_, pairwise_styles hparse, (descriptor_parse_eq_ok_iff.mp hparse).2,
    fun b hb => ?_⟩
  · obtain ⟨name, hmem⟩ : ∃ name, (name, b) ∈ bs := by
      rw [hbs.blocks_eq] at hb
      rcases List.mem_append.mp hb with hb | hb
      · exact (List.mem_append.mp hb).elim (fun hb => ⟨_, mem_named.mp hb⟩)
          fun hb => ⟨_, mem_named.mp hb⟩
      · exact ⟨_, mem_named.mp hb⟩
    obtain ⟨before, after, rfl, hstart⟩ := hlaid.exists_parts hmem
    have hangle : Char.utf8Size '>' = 1 := rfl
    have hnil : Text.bytes [] = 0 := rfl
    refine ⟨before, after, Text.splitAt?_eq_some_iff.mpr ⟨by simp, ?_⟩,
      Text.splitAt?_eq_some_iff.mpr ⟨by simp, ?_⟩⟩
    · rw [hstart, Text.bytes_append, Text.bytes_cons]
      omega
    · rw [Block.stop, hstart, Text.bytes_append, Text.bytes_cons]
      omega
  · rw [hbs.blocks_eq]
    exact separate_of_named (hlaid.pairwise.imp Or.inl) (by decide) (by decide) (by decide)
  · refine hbs.setup b ?_
    have := hbs.script
    rw [Option.toList_none, List.nil_append] at this
    rw [this]
    exact Option.mem_toList.mpr hb

/-- A file with two-byte characters, a nested template and a style without content. -/
def placedPage : Text :=
  "<!-- é --><template lang=\"a>b\">é<template/></template><i18n>y</i18n><script>z</script>".toList ++
    "<style/>\n<style>ü</style>".toList

theorem parse_placed_page :
    let b : Block := ⟨"é<template/>".toList, "lang=\"a>b\"".toList, 32⟩
    let c : Block := ⟨"z".toList, [], 78⟩
    let d : Descriptor := ⟨b, c, [⟨[], [], 96⟩, ⟨"ü".toList, [], 104⟩]⟩
    parse "f".toList placedPage = .ok d ∧
    (∃ before after, Text.splitAt? 32 placedPage = some (before ++ ['>'], b.content ++ after) ∧
      Text.splitAt? 45 placedPage = some (before ++ '>' :: b.content, after)) ∧
    d.blocks.Pairwise (fun b c => b.stop < c.start ∨ c.stop < b.start) ∧
    c.hasAttr "setup".toList = false := by
  intro b c d
  have hd : parse "f".toList placedPage = .ok d := parse_eq_ok_iff.mpr (by decide +kernel)
  obtain ⟨hplaces, hapart, -, -, hsetup⟩ := parse_placed hd
  exact ⟨hd, hplaces b List.mem_cons_self, hapart, hsetup c rfl⟩

end Unbundled.Component
