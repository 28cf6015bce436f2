import Unbundled.Component.Module
import Unbundled.Proofs.Text.Parts

/-! # Block after block

A component file is read step by step: the text before a mark `<`, a comment or a block. The blocks
that are read are added to a descriptor one after another.

* `parseFrom_text`, `parseFrom_comment`, `parseFrom_block`: the steps.
* `addAll_eq_ok_iff`: which blocks may be added after one another, and what they make. -/

namespace Unbundled.Component

variable {b : Block} {d d' : Descriptor} {pos : Nat} {s t u tag : Text}

/-! ### Steps -/

theorem parseFrom_nil (d : Descriptor) (pos : Nat) : d.parseFrom pos [] = .ok d := by
  rw [Descriptor.parseFrom]
  rfl

theorem parseFrom_of_cut?_eq_none (h : Text.cut? ['<'] t = none) : d.parseFrom pos t = .ok d := by
  rw [Descriptor.parseFrom]
  split
  · rfl
  · rename_i h'
    exact absurd (h.symm.trans h') (by simp)

/-- One step: what follows a mark at byte `offset` is read, and then the rest of a text that ends at
byte `stop`. -/
def Descriptor.parseMark (d : Descriptor) (offset stop : Nat) (t : Text) : Except Cause Descriptor :=
  if "!--".toList.isPrefixOf t then
    match Text.cut? "-->".toList t with
    | none => .error (.unclosed "!--".toList offset)
    | some (inside, u) => d.parseFrom (offset + 1 + Text.bytes inside + 3) u
  else if (t.takeWhile isTagChar).isEmpty then d.parseFrom (offset + 1) t
  else
    (readBlock offset t).bind fun (tag, b, u) =>
      (d.add tag b).bind fun d => d.parseFrom (stop - Text.bytes u) u

theorem parseFrom_of_cut? (h : Text.cut? ['<'] t = some (s, u)) :
    d.parseFrom pos t = d.parseMark (pos + Text.bytes s) (pos + Text.bytes t) u := by
  rw [Descriptor.parseFrom, Descriptor.parseMark]
  split
  · rename_i h'
    exact absurd (h.symm.trans h') (by simp)
  · rename_i h'
    obtain ⟨rfl, rfl⟩ := Prod.mk.inj (Option.some.inj (h.symm.trans h'))
    refine if_congr Iff.rfl ?_ (if_congr Iff.rfl rfl ?_)
    · split <;> rename_i hcut <;> rw [hcut]
    · split <;> rename_i hread <;> rw [hread]
      · rfl
      · simp only [Except.bind]
        cases d.add _ _ <;> rfl

/-- A mark at the front. -/
theorem parseFrom_mark :
    d.parseFrom pos ('<' :: t) = d.parseMark pos (pos + Text.bytes ('<' :: t)) t := by
  have hcut : Text.cut? ['<'] ('<' :: t) = some ([], t) := rfl
  rw [parseFrom_of_cut? hcut, Text.bytes_nil, Nat.add_zero]

/-- Text without a mark is passed over. -/
theorem parseFrom_text (hs : '<' ∉ s) (t : Text) :
    d.parseFrom pos (s ++ t) = d.parseFrom (pos + Text.bytes s) t := by
  have hcut := Text.cut?_append (x := t) (fun h => hs (h.subset List.mem_cons_self))
    (Text.noSeam_singleton '<' s t)
  cases ht : Text.cut? ['<'] t with
  | none =>
    rw [ht] at hcut
    rw [parseFrom_of_cut?_eq_none hcut, parseFrom_of_cut?_eq_none ht]
  | some p =>
    rw [ht] at hcut
    rw [parseFrom_of_cut? hcut, parseFrom_of_cut? ht, Text.bytes_append, Text.bytes_append,
      Nat.add_assoc, Nat.add_assoc]

/-- A comment is passed over. -/
theorem parseFrom_comment (hopen : "!--".toList <+: t)
    (hcut : Text.cut? "-->".toList t = some (s, u)) :
    d.parseFrom pos ('<' :: t) = d.parseFrom (pos + 1 + Text.bytes s + 3) u := by
  rw [parseFrom_mark, Descriptor.parseMark, if_pos (List.isPrefixOf_iff_prefix.mpr hopen), hcut]

/-- A block is read and added. -/
theorem parseFrom_block (hopen : ¬ "!--".toList <+: t) (ht : t.takeWhile isTagChar ≠ []) :
    d.parseFrom pos ('<' :: t) = (readBlock pos t).bind fun (tag, b, u) =>
      (d.add tag b).bind fun d =>
        d.parseFrom (pos + Text.bytes ('<' :: t) - Text.bytes u) u := by
  rw [parseFrom_mark, Descriptor.parseMark, if_neg (mt List.isPrefixOf_iff_prefix.mp hopen),
    if_neg (mt List.isEmpty_iff.mp ht)]

/-! ### Files -/

theorem descriptor_parse_eq_ok_iff : Descriptor.parse t = .ok d ↔
    Descriptor.parseFrom ⟨none, none, []⟩ 0 t = .ok d ∧ (d.template.isSome ∨ d.script.isSome) := by
  unfold Descriptor.parse
  cases h : Descriptor.parseFrom ⟨none, none, []⟩ 0 t with
  | error cause => simp
  | ok e =>
    dsimp only
    split
    · rename_i hnone
      simp only [Bool.and_eq_true, Option.isNone_iff_eq_none] at hnone
      constructor
      · exact fun h => absurd h (by simp)
      · rintro ⟨he, hsome⟩
        obtain rfl := Except.ok.inj he
        rw [hnone.1, hnone.2] at hsome
        exact absurd hsome (by simp)
    · rename_i hsome
      refine ⟨fun h => ⟨h, ?_⟩, And.left⟩
      rw [← Except.ok.inj h]
      cases ht : e.template with
      | some b => exact Or.inl rfl
      | none =>
        cases hs : e.script with
        | some b => exact Or.inr rfl
        | none => exact absurd (show _ from by rw [ht, hs]; rfl) hsome

theorem parse_eq_ok_iff {file : Text} : parse file t = .ok d ↔ Descriptor.parse t = .ok d := by
  unfold parse
  cases Descriptor.parse t <;> simp [Except.mapError]

/-! ### Blocks that are added -/

/-- The blocks of one name among blocks with their names. -/
def named (name : Text) (bs : List (Text × Block)) : List Block :=
  (bs.filter fun (tag, _) => tag = name).map Prod.snd

/-- The blocks with more of them added one after another. -/
def Descriptor.addAll (d : Descriptor) (bs : List (Text × Block)) : Except Cause Descriptor :=
  bs.foldlM (fun d (tag, b) => d.add tag b) d

theorem addAll_cons (d : Descriptor) (tag : Text) (b : Block) (bs : List (Text × Block)) :
    d.addAll ((tag, b) :: bs) = (d.add tag b).bind fun d => d.addAll bs := List.foldlM_cons

theorem named_cons (name tag : Text) (b : Block) (bs : List (Text × Block)) :
    named name ((tag, b) :: bs) = (if tag = name then [b] else []) ++ named name bs := by
  unfold named
  by_cases h : tag = name
  · rw [if_pos h, List.filter_cons_of_pos (by simpa using h)]
    rfl
  · rw [if_neg h, List.filter_cons_of_neg (by simpa using h)]
    rfl

theorem mem_named {name : Text} {bs : List (Text × Block)} : b ∈ named name bs ↔ (name, b) ∈ bs := by
  simp [named]

theorem named_pairwise {R : Block → Block → Prop} {bs : List (Text × Block)} (name : Text)
    (h : bs.Pairwise fun x y => R x.2 y.2) : (named name bs).Pairwise R :=
  List.pairwise_map.mpr (h.filter _)

/-- **What a descriptor holds after more blocks are added**: at most one template and one script, which
is not marked as setup, and the styles in order. -/
@[mk_iff]
structure Collects (d : Descriptor) (bs : List (Text × Block)) (d' : Descriptor) : Prop where
  template : d.template.toList ++ named "template".toList bs = d'.template.toList
  script : d.script.toList ++ named "script".toList bs = d'.script.toList
  styles : d.styles ++ named "style".toList bs = d'.styles
  setup : ∀ b ∈ named "script".toList bs, b.hasAttr "setup".toList = false

theorem collects_nil : Collects d [] d' ↔ d = d' := by
  constructor
  · rintro ⟨ht, hs, hstyles, -⟩
    obtain ⟨t, s, styles⟩ := d
    obtain ⟨t', s', styles'⟩ := d'
    cases t <;> cases t' <;> cases s <;> cases s' <;> simp_all [named]
  · rintro rfl
    constructor <;> simp [named]

theorem collects_cons {bs : List (Text × Block)} :
    Collects d ((tag, b) :: bs) d' ↔ ∃ e, d.add tag b = .ok e ∧ Collects e bs d' := by
  have hmore : ∀ (o : Option Block) (x y : Block) (l : List Block), x :: y :: l ≠ o.toList := by
    intro o x y l h
    cases o <;> simp at h
  have h1 : "template".toList ≠ "script".toList := by decide
  have h2 : "template".toList ≠ "style".toList := by decide
  have h3 : "script".toList ≠ "style".toList := by decide
  simp only [collects_iff, named_cons]
  unfold Descriptor.add
  -- the names themselves do not matter
  generalize "template".toList = template, "script".toList = script, "style".toList = style,
    "setup".toList = setup at *
  by_cases ht : tag = template
  · subst ht
    cases d.template with
    | none => simp [h1, h2]
    | some x => simp [hmore]
  by_cases hs : tag = script
  · subst hs
    cases hb : b.hasAttr setup with
    | true => simp [ht, hb]
    | false =>
      cases d.script with
      | none => simp [ht, h3, hb]
      | some x => simp [ht, hmore]
  by_cases hy : tag = style
  · subst hy
    simp [ht, hs]
  · simp [ht, hs, hy]

/-- **The blocks that may be added**, and what they make. -/
theorem addAll_eq_ok_iff {bs : List (Text × Block)} : d.addAll bs = .ok d' ↔ Collects d bs d' := by
  induction bs generalizing d with
  | nil => exact Except.ok.injEq d d' ▸ collects_nil.symm
  | cons x bs ih =>
    obtain ⟨tag, b⟩ := x
    rw [addAll_cons, collects_cons]
    cases d.add tag b with
    | error cause => simp [Except.bind]
    | ok e => simp [Except.bind, ih]

end Unbundled.Component
