import Unbundled.Proofs.Component.Listing

/-! # Components with a script alone

The script of a component file is the text before the first closing tag after its opening tag. So
every script can be had without the other blocks of its file (`parse_scriptPage`), and its code is
the same there (`code_eq`). -/

namespace Unbundled.Component

variable {b : Block} {code content source : Text} {d d' : Descriptor} {pos : Nat} {t : Text}

/-- The closing tag of a script. -/
def scriptClose : Text := "</script>".toList

/-- The text ends at the first closing tag of a script. -/
def Enclosed (content : Text) : Prop :=
  Text.cut? scriptClose (content ++ scriptClose) = some (content, [])

theorem enclosed_of_cut? {u : Text} (h : Text.cut? scriptClose t = some (content, u)) :
    Enclosed content := by
  have := Text.cut?_front (by decide) h []
  rwa [List.append_nil] at this

theorem enclosed_nil : Enclosed [] := by
  unfold Enclosed
  decide

theorem contentOf?_script (t : Text) : contentOf? "script".toList t = Text.cut? scriptClose t :=
  if_neg (by decide)

/-- The content of a script that is read is enclosed. -/
theorem enclosed_of_readBlock {u : Text} (h : readBlock pos t = .ok ("script".toList, b, u)) :
    Enclosed b.content := by
  unfold readBlock at h
  dsimp only at h
  split at h
  · exact absurd h (by simp)
  split at h
  · obtain ⟨-, hb⟩ := Prod.mk.inj (Except.ok.inj h)
    rw [← (Prod.mk.inj hb).1]
    exact enclosed_nil
  split at h
  · exact absurd h (by simp)
  · rename_i content after hcontent
    obtain ⟨htag, hb⟩ := Prod.mk.inj (Except.ok.inj h)
    rw [← (Prod.mk.inj hb).1]
    rw [htag, contentOf?_script] at hcontent
    exact enclosed_of_cut? hcontent

theorem script_of_add {tag : Text} (h : d.add tag b = .ok d') :
    d'.script = d.script ∨ tag = "script".toList ∧ d'.script = some b := by
  unfold Descriptor.add at h
  split at h
  · split at h
    · exact absurd h (by simp)
    · exact Or.inl (Except.ok.inj h ▸ rfl)
  split at h
  · rename_i htag
    split at h
    · exact absurd h (by simp)
    split at h
    · exact absurd h (by simp)
    · exact Or.inr ⟨htag, Except.ok.inj h ▸ rfl⟩
  split at h
  · exact Or.inl (Except.ok.inj h ▸ rfl)
  · exact Or.inl (Except.ok.inj h ▸ rfl)

theorem enclosed_of_parseFrom (h : d.parseFrom pos t = .ok d')
    (hd : ∀ b ∈ d.script, Enclosed b.content) : ∀ b ∈ d'.script, Enclosed b.content := by
  fun_induction Descriptor.parseFrom d pos t with
  | case1 => exact Except.ok.inj h ▸ hd
  | case2 => exact absurd h (by simp)
  | case3 d pos t before after hb offset hc inside beyond hi ih => exact ih h hd
  | case4 d pos t before after hb offset hc ht ih => exact ih h hd
  | case5 => exact absurd h (by simp)
  | case6 => exact absurd h (by simp)
  | case7 d pos t before after hb offset hc ht tag block beyond hread e hadd ih =>
    refine ih h fun b hmem => ?_
    rcases script_of_add hadd with hs | ⟨rfl, hs⟩
    · exact hd b (hs ▸ hmem)
    · obtain rfl := Option.some.inj (hs.symm.trans hmem)
      exact enclosed_of_readBlock hread

/-- **The script of a file ends at the first closing tag.** -/
theorem enclosed_of_parse (h : Descriptor.parse source = .ok d) :
    ∀ b ∈ d.script, Enclosed b.content := by
  unfold Descriptor.parse at h
  split at h
  · exact absurd h (by simp)
  · rename_i e he
    split at h
    · exact absurd h (by simp)
    · obtain rfl := Except.ok.inj h
      exact enclosed_of_parseFrom he fun b hb => absurd hb (by simp)

/-! ### A script alone -/

/-- A component file with a script alone. -/
def scriptPage (content : Text) : Text := "<script>".toList ++ (content ++ scriptClose)

theorem readBlock_scriptPage (h : Enclosed content) :
    readBlock 0 ("script>".toList ++ (content ++ scriptClose)) =
      .ok ("script".toList, ⟨content, [], 8⟩, []) := by
  have htag : ("script>".toList ++ (content ++ scriptClose)).takeWhile isTagChar =
      "script".toList := rfl
  have hrest : tagEnd? none (("script>".toList ++ (content ++ scriptClose)).dropWhile isTagChar) =
      some ([], content ++ scriptClose) := rfl
  unfold readBlock
  rw [htag, hrest]
  dsimp only
  rw [if_neg (by decide), contentOf?_script, h]
  rfl

theorem attributes_nil : attributes [] = [] := by
  rw [attributes]
  rfl

theorem add_script (content : Text) (start : Nat) :
    Descriptor.add ⟨none, none, []⟩ "script".toList ⟨content, [], start⟩ =
      .ok ⟨none, some ⟨content, [], start⟩, []⟩ := by
  have hsetup : Block.hasAttr ⟨content, [], start⟩ "setup".toList = false := by
    rw [Block.hasAttr, attributes_nil]
    rfl
  rw [Descriptor.add, if_neg (by decide), if_pos rfl, hsetup]
  rfl

theorem parse_scriptPage (h : Enclosed content) :
    Descriptor.parse (scriptPage content) = .ok ⟨none, some ⟨content, [], 8⟩, []⟩ := by
  have hfrom : Descriptor.parseFrom ⟨none, none, []⟩ 0 (scriptPage content) =
      .ok ⟨none, some ⟨content, [], 8⟩, []⟩ := by
    have hmark : scriptPage content = '<' :: ("script>".toList ++ (content ++ scriptClose)) := rfl
    have hopen : ¬ "!--".toList <+: "script>".toList ++ (content ++ scriptClose) :=
      fun hpre => absurd (List.cons_prefix_cons.mp hpre).1 (by decide)
    have htag : ("script>".toList ++ (content ++ scriptClose)).takeWhile isTagChar ≠ [] :=
      List.cons_ne_nil 's' "cript".toList
    rw [hmark, parseFrom_block hopen htag, readBlock_scriptPage h]
    simp only [Except.bind, add_script, parseFrom_nil]
  rw [Descriptor.parse, hfrom]
  rfl

/-! ### The code of a script -/

/-- The code of a script depends on its content only. -/
theorem code_of_compileScript (h : compileScript (some b) = .ok code) :
    code = bindMain (Text.trim b.content) := by
  unfold compileScript at h
  dsimp only at h
  cases he : checkExternal "script".toList b with
  | error cause =>
    rw [he] at h
    exact absurd h (by simp [bind, Except.bind])
  | ok _ =>
    cases hl : checkLanguage "script".toList ["js".toList, "javascript".toList] b with
    | error cause =>
      rw [he, hl] at h
      exact absurd h (by simp [bind, Except.bind])
    | ok _ =>
      rw [he, hl] at h
      exact (Except.ok.inj h).symm

theorem code_eq {script script' : Option Block} {code' : Text} (hc : compileScript script = .ok code)
    (hc' : compileScript script' = .ok code')
    (h : script'.map Block.content = script.map Block.content) : code' = code := by
  cases script with
  | none =>
    obtain rfl := Option.map_eq_none_iff.mp h
    exact Except.ok.inj (hc'.symm.trans hc)
  | some b =>
    obtain ⟨b', rfl, hb⟩ := Option.map_eq_some_iff.mp h
    rw [code_of_compileScript hc, code_of_compileScript hc', hb]

/-- A module has the code of its script. -/
theorem exists_code_of_toModule {file id m : Text} (h : d.toModule file id = .ok m) :
    ∃ code, compileScript d.script = .ok code := by
  cases hc : compileScript d.script with
  | ok code => exact ⟨code, rfl⟩
  | error cause =>
    unfold Descriptor.toModule at h
    rw [hc] at h
    cases ht : d.template.mapM compileTemplate with
    | error _ =>
      rw [ht] at h
      exact absurd h (by simp [bind, Except.bind])
    | ok _ =>
      rw [ht] at h
      exact absurd h (by simp [bind, Except.bind])

theorem compileScript_bare (content : Text) (start : Nat) :
    compileScript (some ⟨content, [], start⟩) = .ok (bindMain (Text.trim content)) := by
  have hattr : ∀ name, Block.attr? ⟨content, [], start⟩ name = none := by
    intro name
    rw [Block.attr?, attributes_nil]
    rfl
  unfold compileScript checkExternal checkLanguage
  dsimp only
  rw [hattr, hattr]
  rfl

/-! ### Modules -/

theorem assemble_eq_ok_iff {source file id m : Text} {d : Descriptor}
    (hd : Descriptor.parse source = .ok d) :
    assemble file id source = .ok m ↔ d.toModule file id = .ok m := by
  rw [assemble, hd]
  change (d.toModule file id).mapError _ = _ ↔ _
  cases d.toModule file id with
  | error cause => exact iff_of_false (by simp [Except.mapError]) (by simp)
  | ok code => simp [Except.mapError]

theorem exists_of_assemble {file id m : Text} (h : assemble file id source = .ok m) :
    ∃ d, Descriptor.parse source = .ok d ∧ d.toModule file id = .ok m := by
  cases hd : Descriptor.parse source with
  | ok d => exact ⟨d, rfl, (assemble_eq_ok_iff hd).mp h⟩
  | error cause =>
    rw [assemble, hd] at h
    exact absurd h (by simp [Except.bind, Except.mapError])

end Unbundled.Component
