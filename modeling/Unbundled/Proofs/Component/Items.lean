import Unbundled.Proofs.Component.Listing
import Unbundled.Proofs.Component.Templates

/-! # Files written item by item

A component file is a list of items: text, comments and blocks, each with or without content. What such
a file holds is said by its list (`listed`): every block with its content, its attributes and its
offset.

* `parseFrom_source`: reading a file adds the blocks of its list one after another.
* `parse_source_eq_ok_iff`: the files that are accepted, and what is read of them. -/

namespace Unbundled.Component

variable {d d' : Descriptor} {pos : Nat} {content t u : Text} {items : List Item}

/-! ### Items -/

/-- A comment, which ends at the first mark for its end. -/
structure Comment where
  text : Text
  opened : "<!--".toList <+: text := by decide
  closed : "-->".toList <:+ text := by decide
  first : ¬ "-->".toList <:+: text.dropLast := by decide

/-- A block with content. No tag in the content counts as its end, nor as one of a further
template. -/
structure Filled where
  tag : Tag
  content : Text
  not_closed : ¬ tag.closing <:+: content := by decide
  not_opened : tag.name = "template".toList → ¬ templateOpen <:+: content := by decide

/-- **The items of a component file.** -/
inductive Item
  | text (t : Text) (not_mark : '<' ∉ t)
  | comment (comment : Comment)
  | block (block : Filled)
  | empty (tag : Tag)

namespace Item

/-- The text of an item. -/
def source : Item → Text
  | text t _ => t
  | comment c => c.text
  | block b => b.tag.opening ++ (b.content ++ b.tag.closing)
  | empty tag => tag.empty

/-- The block of an item at byte `pos`, with its name. -/
def listed (pos : Nat) : Item → List (Text × Block)
  | text _ _ => []
  | comment _ => []
  | block b => [(b.tag.name, ⟨b.content, b.tag.attrs, pos + Text.bytes b.tag.opening⟩)]
  | empty tag => [(tag.name, ⟨[], tag.attrs, pos + Text.bytes tag.empty⟩)]

end Item

/-- **The file of a list of items.** -/
def page (items : List Item) : Text := items.flatMap Item.source

/-- **The blocks of a list of items** from byte `pos` on, with their names. -/
def listed (pos : Nat) : List Item → List (Text × Block)
  | [] => []
  | item :: items => item.listed pos ++ listed (pos + Text.bytes item.source) items

theorem page_cons (item : Item) (items : List Item) :
    page (item :: items) = item.source ++ page items := List.flatMap_cons

/-! ### The content of a block -/

theorem not_mem_closing (tag : Tag) : '<' ∉ '/' :: (tag.name ++ ['>']) := by
  intro h
  rcases List.mem_cons.mp h with h | h
  · exact absurd h (by decide)
  rcases List.mem_append.mp h with h | h
  · exact absurd (tag.isTagChar _ h) (by decide)
  · exact absurd (List.mem_singleton.mp h) (by decide)

theorem closing_eq_templateClose {tag : Tag} (h : tag.name = "template".toList) :
    tag.closing = templateClose := by
  rw [Tag.closing, h]
  rfl

theorem contentOf?_template
    (h : templateSize? 0 (content ++ (templateClose ++ t)) = some content.length) :
    contentOf? "template".toList (content ++ (templateClose ++ t)) = some (content, t) := by
  rw [contentOf?, if_pos rfl, h, Option.map_some, List.take_left, ← List.drop_drop, List.drop_left,
    List.drop_left]

/-- The content of a block ends at its closing tag. -/
theorem Filled.contentOf?_eq (b : Filled) (t : Text) :
    contentOf? b.tag.name (b.content ++ (b.tag.closing ++ t)) = some (b.content, t) := by
  by_cases hname : b.tag.name = "template".toList
  · have hclose := closing_eq_templateClose hname
    have hprose : IsProse b.content := ⟨b.not_opened hname, hclose ▸ b.not_closed⟩
    have hhead : ∀ z ∈ (templateClose ++ t).head?, z = '<' :=
      fun z hz => (Option.some.inj hz).symm
    rw [hname, hclose]
    refine contentOf?_template ?_
    rw [templateSize?_append hprose (Text.noSeam_of_head (by decide) hhead _)
      (Text.noSeam_of_head (by decide) hhead _), templateSize?_close]
    rfl
  · rw [contentOf?, if_neg hname]
    exact Text.cut?_of_not_isInfix (not_mem_closing b.tag) b.not_closed t

/-! ### One item -/

theorem parseFrom_tag {tag : Tag} {b : Block} {stop : Nat}
    (hread : readBlock pos (tag.name ++ u) = .ok (tag.name, b, t))
    (hstop : pos + Text.bytes ('<' :: (tag.name ++ u)) = stop + Text.bytes t) :
    d.parseFrom pos ('<' :: (tag.name ++ u)) =
      (d.add tag.name b).bind fun d => d.parseFrom stop t := by
  obtain ⟨c, name, hname⟩ := List.exists_cons_of_ne_nil tag.name_ne_nil
  have hc : isTagChar c := tag.isTagChar c (hname ▸ List.mem_cons_self)
  have hopen : ¬ "!--".toList <+: tag.name ++ u := by
    rw [hname]
    intro h
    rw [← (List.cons_prefix_cons.mp h).1] at hc
    exact absurd hc (by decide)
  have htag : (tag.name ++ u).takeWhile isTagChar ≠ [] := by
    rw [hname, List.cons_append, List.takeWhile_cons_of_pos hc]
    exact List.cons_ne_nil _ _
  rw [parseFrom_block hopen htag, hread, hstop]
  simp only [Except.bind, Nat.add_sub_cancel]

/-- **A block with content** is read up to its closing tag. -/
theorem parseFrom_opening {tag : Tag} {close : Text}
    (h : contentOf? tag.name (content ++ (close ++ t)) = some (content, t)) :
    d.parseFrom pos (tag.opening ++ (content ++ (close ++ t))) =
      (d.add tag.name ⟨content, tag.attrs, pos + Text.bytes tag.opening⟩).bind fun d =>
        d.parseFrom (pos + Text.bytes (tag.opening ++ (content ++ close))) t := by
  have hsource : tag.opening ++ (content ++ (close ++ t)) =
      '<' :: (tag.name ++ (tag.inside ++ '>' :: (content ++ (close ++ t)))) := by
    simp [Tag.opening]
  rw [hsource]
  refine parseFrom_tag ?_ ?_
  · rw [tag.readBlock_opening, h]
    rfl
  · rw [← hsource]
    simp only [Text.bytes_append]
    omega

theorem parseFrom_empty (tag : Tag) (t : Text) :
    d.parseFrom pos (tag.empty ++ t) =
      (d.add tag.name ⟨[], tag.attrs, pos + Text.bytes tag.empty⟩).bind fun d =>
        d.parseFrom (pos + Text.bytes tag.empty) t := by
  have hsource : tag.empty ++ t = '<' :: (tag.name ++ (tag.inside ++ '/' :: '>' :: t)) := by
    simp [Tag.empty]
  rw [hsource]
  refine parseFrom_tag (tag.readBlock_empty pos t) ?_
  rw [← hsource, Text.bytes_append, Nat.add_assoc]

theorem Comment.parseFrom_append (c : Comment) (t : Text) :
    d.parseFrom pos (c.text ++ t) = d.parseFrom (pos + Text.bytes c.text) t := by
  obtain ⟨s, hs⟩ := c.closed
  obtain ⟨r, hr⟩ : ∃ r, '<' :: ("!--".toList ++ r) = c.text := c.opened
  have hfirst := c.first
  rw [← hs] at hr hfirst ⊢
  cases s with
  | nil => exact absurd (List.cons.inj hr).1 (by decide)
  | cons m s =>
    rw [List.cons_append] at hr
    obtain ⟨rfl, htail⟩ := List.cons.inj hr
    have hend : ¬ "-->".toList <:+: (s ++ "-->".toList).dropLast := by
      intro h
      refine hfirst ?_
      rw [List.cons_append, List.dropLast_cons_of_ne_nil (by simp)]
      exact h.trans (List.suffix_cons _ _).isInfix
    have hopen : "!--".toList <+: s ++ ("-->".toList ++ t) :=
      ⟨r ++ t, by rw [← List.append_assoc, htail, List.append_assoc]⟩
    have hmark : Text.bytes ['<'] = 1 := rfl
    have hclose : Text.bytes "-->".toList = 3 := rfl
    rw [List.append_assoc, List.cons_append,
      parseFrom_comment hopen (Text.cut?_of_isSuffix (by decide) hend t), ← List.singleton_append]
    simp only [Text.bytes_append, hmark, hclose, Nat.add_assoc]

theorem addAll_singleton (d : Descriptor) (tag : Text) (b : Block) :
    d.addAll [(tag, b)] = d.add tag b := by
  rw [addAll_cons]
  cases d.add tag b <;> rfl

/-- **One item** is read, and its block is added. -/
theorem parseFrom_item (item : Item) (t : Text) : d.parseFrom pos (item.source ++ t) =
    (d.addAll (item.listed pos)).bind fun d => d.parseFrom (pos + Text.bytes item.source) t := by
  cases item with
  | text s hs => exact parseFrom_text hs t
  | comment c => exact c.parseFrom_append t
  | block b =>
    rw [Item.listed, addAll_singleton, Item.source, List.append_assoc, List.append_assoc]
    exact parseFrom_opening (b.contentOf?_eq t)
  | empty tag =>
    rw [Item.listed, addAll_singleton]
    exact parseFrom_empty tag t

/-! ### Files -/

theorem addAll_append (d : Descriptor) (bs cs : List (Text × Block)) :
    d.addAll (bs ++ cs) = (d.addAll bs).bind fun d => d.addAll cs := List.foldlM_append

/-- **The items of a file are read one after another**, whatever follows them. -/
theorem parseFrom_page (items : List Item) (t : Text) : d.parseFrom pos (page items ++ t) =
    (d.addAll (listed pos items)).bind fun d => d.parseFrom (pos + Text.bytes (page items)) t := by
  induction items generalizing d pos with
  | nil => rfl
  | cons item items ih =>
    rw [page_cons, List.append_assoc, parseFrom_item, listed, addAll_append, Text.bytes_append,
      ← Nat.add_assoc]
    cases d.addAll (item.listed pos) with
    | error cause => rfl
    | ok e => exact ih

theorem parseFrom_page_nil (items : List Item) :
    d.parseFrom pos (page items) = d.addAll (listed pos items) := by
  have h : d.parseFrom pos (page items ++ []) = _ := parseFrom_page items []
  rw [← List.append_nil (page items), h]
  cases d.addAll (listed pos items) with
  | error cause => rfl
  | ok e => exact parseFrom_nil _ _

/-- **The files that are accepted**, and what is read of them. -/
theorem parse_page_eq_ok_iff {file : Text} : parse file (page items) = .ok d ↔
    Collects ⟨none, none, []⟩ (listed 0 items) d ∧ (d.template.isSome ∨ d.script.isSome) := by
  rw [parse_eq_ok_iff, descriptor_parse_eq_ok_iff, parseFrom_page_nil, addAll_eq_ok_iff]

theorem toList_head? {l : List Block} (h : l.length ≤ 1) : l.head?.toList = l := by
  match l, h with
  | [], _ => rfl
  | [b], _ => rfl

/-- **A file gives back the list it was written from**: its template, its script and its styles in
order, each with its content, its attributes and its offset. -/
theorem parse_page (file : Text) (items : List Item)
    (htemplate : (named "template".toList (listed 0 items)).length ≤ 1)
    (hscript : (named "script".toList (listed 0 items)).length ≤ 1)
    (hsetup : ∀ b ∈ named "script".toList (listed 0 items), b.hasAttr "setup".toList = false)
    (hsome : named "template".toList (listed 0 items) ≠ [] ∨
      named "script".toList (listed 0 items) ≠ []) :
    parse file (page items) = .ok ⟨(named "template".toList (listed 0 items)).head?,
      (named "script".toList (listed 0 items)).head?, named "style".toList (listed 0 items)⟩ := by
  refine parse_page_eq_ok_iff.mpr ⟨⟨?_, ?_, rfl, hsetup⟩, ?_⟩
  · exact (toList_head? htemplate).symm
  · exact (toList_head? hscript).symm
  · simpa only [List.isSome_head?, List.isEmpty_eq_false_iff] using hsome

/-- A file with an empty comment, a quoted `>`, a block of another name and two styles. -/
def assortedItems : List Item :=
  [.comment { text := "<!-->".toList },
    .text "é\n".toList (by decide),
    .block
      { tag := { name := "template".toList, gap := [' '], attrs := "lang=\"a>b\"".toList }
        content := "<p>/></p>".toList },
    .block
      { tag := { name := "i18n".toList, gap := [], attrs := [] }
        content := "<script setup>".toList },
    .block
      { tag := { name := "style".toList, gap := ['\t', ' '], attrs := "scoped".toList }
        content := "p \x7b\x7d".toList },
    .empty { name := "script".toList, gap := [' '], attrs := "src=/x lang".toList },
    .empty { name := "style".toList, gap := [], attrs := [] }]

theorem parse_page_assorted :
    page assortedItems = "<!-->é\n<template lang=\"a>b\"><p>/></p></template>".toList ++
      "<i18n><script setup></i18n><style\t scoped>p \x7b\x7d</style>".toList ++
      "<script src=/x lang/><style/>".toList ∧
    parse "f".toList (page assortedItems) = .ok
      ⟨some ⟨"<p>/></p>".toList, "lang=\"a>b\"".toList, 29⟩, some ⟨[], "src=/x lang".toList, 124⟩,
        [⟨"p \x7b\x7d".toList, "scoped".toList, 91⟩, ⟨[], [], 132⟩]⟩ :=
  ⟨by decide +kernel,
    parse_page "f".toList assortedItems (by decide) (by decide) (by decide +kernel) (by decide)⟩

end Unbundled.Component
