import Unbundled.Proofs.Component.Items
import Unbundled.Proofs.Component.Losses
import Unbundled.Proofs.Component.Placement

/-! # The template of a file

A file has a template among other items. It is read whole if the search for its end loses nothing in its
content (`template_kept`), and otherwise ends too early. -/

namespace Unbundled.Component

variable {t u : Text}

/-! ### Files with a template -/

/-- A file with a template among other items. -/
def templatePage (before after : List Item) (root : Tag) (content : Text) : Text :=
  page before ++ (root.opening ++ (content ++ (root.closing ++ page after)))

/-- The template of such a file. -/
def templateBlock (before : List Item) (root : Tag) (content : Text) : Block :=
  ⟨content, root.attrs, Text.bytes (page before ++ root.opening)⟩

/-- The blocks of such a file. -/
def templateBlocks (before after : List Item) (root : Tag) (content : Text) : List (Text × Block) :=
  listed 0 before ++ (root.name, templateBlock before root content) ::
    listed (Text.bytes (page before ++ (root.opening ++ (content ++ root.closing)))) after

section Page
variable {before after : List Item} {root : Tag} {content : Text} {d e : Descriptor} {b : Block}
  {pos : Nat} (hroot : root.name = "template".toList)

theorem template_of_collects {bs : List (Text × Block)} (h : Collects d bs e)
    (hb : d.template = some b) : e.template = some b := by
  have htemplate := h.template
  rw [hb, Option.toList_some] at htemplate
  cases he : e.template with
  | none =>
    rw [he] at htemplate
    exact absurd htemplate (by simp)
  | some x =>
    rw [he, Option.toList_some] at htemplate
    rw [(List.cons.inj htemplate).1]

include hroot

theorem template_of_templateBlocks
    (h : Collects ⟨none, none, []⟩ (templateBlocks before after root content) d) :
    d.template = some (templateBlock before root content) := by
  have hmem : templateBlock before root content ∈
      named "template".toList (templateBlocks before after root content) :=
    mem_named.mpr (hroot ▸ List.mem_append_right _ List.mem_cons_self)
  have htemplate := h.template
  rw [Option.toList_none, List.nil_append] at htemplate
  rw [htemplate] at hmem
  exact Option.mem_toList.mp hmem

theorem parse_templatePage {file : Text}
    (hsize : templateSize? 0 (content ++ (templateClose ++ page after)) = some content.length)
    (h : Collects ⟨none, none, []⟩ (templateBlocks before after root content) d) :
    parse file (templatePage before after root content) = .ok d := by
  have htemplate := template_of_templateBlocks hroot h
  rw [parse_eq_ok_iff, descriptor_parse_eq_ok_iff, htemplate]
  refine ⟨?_, Or.inl rfl⟩
  rw [← addAll_eq_ok_iff, templateBlocks, addAll_append] at h
  rw [← h, templatePage, parseFrom_page]
  congr 1
  funext e
  have hcontent : contentOf? root.name (content ++ (root.closing ++ page after)) =
      some (content, page after) := by
    rw [hroot, closing_eq_templateClose hroot]
    exact contentOf?_template hsize
  rw [parseFrom_opening hcontent, addAll_cons, templateBlock, Nat.zero_add,
    Text.bytes_append _ root.opening, Text.bytes_append (page before)]
  simp only [parseFrom_page_nil]

theorem template_of_parseFrom (hcontent : contentOf? root.name u = some (content, t))
    (h : d.parseFrom pos (root.opening ++ u) = .ok e) :
    e.template.map Block.content = some content := by
  obtain ⟨close, rfl⟩ := append_of_contentOf? hcontent
  rw [parseFrom_opening hcontent, Descriptor.add, if_pos hroot] at h
  cases htemplate : d.template with
  | some b =>
    rw [htemplate] at h
    exact absurd h (by simp [Except.bind])
  | none =>
    rw [htemplate] at h
    have hmore : Descriptor.parseFrom { d with template := some ⟨content, root.attrs, _⟩ } _ t =
        .ok e := h
    obtain ⟨bs, -, hbs⟩ := exists_laid_of_parseFrom hmore
    rw [template_of_collects hbs rfl]
    rfl

/-- A template that ends early is read only so far. -/
theorem template_of_parse {file : Text} {n : Nat}
    (hsize : templateSize? 0 (content ++ (templateClose ++ page after)) = some n)
    (h : parse file (templatePage before after root content) = .ok d) :
    d.template.map Block.content = some ((content ++ (templateClose ++ page after)).take n) := by
  rw [parse_eq_ok_iff, descriptor_parse_eq_ok_iff, templatePage, parseFrom_page,
    closing_eq_templateClose hroot] at h
  cases hbefore : Descriptor.addAll ⟨none, none, []⟩ (listed 0 before) with
  | error cause =>
    rw [hbefore] at h
    exact absurd h.1 (by simp [Except.bind])
  | ok e =>
    rw [hbefore] at h
    have hcontent : contentOf? root.name (content ++ (templateClose ++ page after)) =
        some ((content ++ (templateClose ++ page after)).take n,
          (content ++ (templateClose ++ page after)).drop (n + templateClose.length)) := by
      rw [contentOf?, if_pos hroot, hsize]
      rfl
    exact template_of_parseFrom hroot hcontent h.1

end Page

/-- **A template is read whole** if the search loses nothing in its content, in particular if the
content is plain. It is not if something is lost, unless a tag has an opening mark after a closing tag
in its values. -/
theorem template_kept {file : Text} {before after : List Item} {root : Tag} {d : Descriptor}
    (c : Content) (hroot : root.name = "template".toList)
    (h : Collects ⟨none, none, []⟩ (templateBlocks before after root c.source) d) :
    d.template = some ⟨c.source, root.attrs, Text.bytes (page before ++ root.opening)⟩ ∧
    (c.Plain → c.lost false = 0) ∧
    (c.lost false = 0 → parse file (templatePage before after root c.source) = .ok d) ∧
    (c.Unmixed → ∀ e, parse file (templatePage before after root c.source) = .ok e →
      e.template.map Block.content = some c.source → c.lost false = 0) := by
  refine ⟨template_of_templateBlocks hroot h, c.lost_eq_zero, fun hzero => ?_,
    fun hmixed e he hkept => ?_⟩
  · have hsize := (c.loses passed_nil (Or.inl hzero)).late 0 (page after)
    rw [hzero] at hsize
    exact parse_templatePage hroot hsize h
  · by_contra hlost
    obtain ⟨n, hn, hsize⟩ :=
      (c.loses passed_nil (Or.inr hmixed)).early 0 (Nat.pos_of_ne_zero hlost) (page after)
    have htake := template_of_parse hroot hsize he
    rw [hkept] at htake
    have hlen := congrArg List.length (Option.some.inj htake)
    rw [List.length_take] at hlen
    rw [List.nil_append] at hn
    omega

/-- A content with a closing tag in a value, a template without content, and a tag of another element
after the last template. -/
def keptContent : Content :=
  .nested { text := "a".toList } { text := " v-if=\"</template>\"".toList }
    (.single { text := "b".toList } { text := " slot".toList } (.text { text := [] }))
    (.other { text := [] } { inside := "-list".toList }
      (.closing { text := "c".toList } { inside := "-list".toList } (.text { text := "d".toList })))

theorem template_kept_list :
    let root : Tag := { name := "template".toList, gap := [], attrs := [] }
    let after : List Item := [.empty { name := "style".toList, gap := [], attrs := [] }]
    let d : Descriptor := ⟨some ⟨keptContent.source, [], 10⟩, none, [⟨[], [], 120⟩]⟩
    keptContent.source = "a<template v-if=\"</template>\">b<template slot/></template>".toList ++
      "<template-list>c</template-list>d".toList ∧
    keptContent.lost false = 0 ∧
    parse "f".toList (templatePage [] after root keptContent.source) = .ok d := by
  intro root after d
  have hd : Collects ⟨none, none, []⟩ (templateBlocks [] after root keptContent.source) d :=
    addAll_eq_ok_iff.mp (by decide +kernel)
  have hzero : keptContent.lost false = 0 := by decide +kernel
  exact ⟨by decide, hzero, (template_kept keptContent rfl hd).2.2.1 hzero⟩

/-- After the tag of another element the opening tag of a template is missed, and the root template ends
at the closing tag of the inner one. -/
theorem exists_cut_short : ∃ (c : Content) (b : Block),
    c.source = "<template-list></template-list><template>x</template>y".toList ∧
    Descriptor.parse ("<template>".toList ++ (c.source ++ "</template>".toList)) =
      .ok ⟨some b, none, []⟩ ∧
    b.content = "<template-list></template-list><template>x".toList := by
  let c : Content :=
    .other { text := [] } { inside := "-list".toList }
      (.closing { text := [] } { inside := "-list".toList }
        (.nested { text := [] } { text := [] } (.text { text := "x".toList })
          (.text { text := "y".toList })))
  let b : Block := ⟨"<template-list></template-list><template>x".toList, [], 10⟩
  exact ⟨c, b, by decide, by decide +kernel, rfl⟩

end Unbundled.Component
