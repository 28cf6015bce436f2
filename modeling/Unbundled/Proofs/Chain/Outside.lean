import Unbundled.Proofs.Chain.Direct
import Unbundled.Proofs.Package.Manifests
import Unbundled.Proofs.Url.Requests

/-! # Files outside the root

Resolution may look for a file outside the root, but nothing that such a file holds gets into an
answer: what a request leads to lies inside the root, with the manifests that its imports are resolved
by. So two disks with the same tree that agree on the files inside the root give the same answers
(`answer_eq_of_agreeInside`). -/

namespace Unbundled

open Unbundled.Path (IsName)

variable {disk other : Disk} {settings : ChainSettings} {root file p : Path} {path : Text}
  {names : List Text}

/-- Rewriting asks the disk only for the URLs of specifiers. -/
theorem Import.rewriteSource_congr
    (h : ∀ spec, Package.resolveUrl disk root spec = Package.resolveUrl other root spec)
    (source : Text) :
    Import.rewriteSource disk root source = Import.rewriteSource other root source := by
  have htake : Pending.take disk root source = Pending.take other root source := by
    funext p i
    rw [Pending.take, Pending.take, h]
  rw [rewriteSource, rewriteSource, rewrite, rewrite, htake]

theorem exists_names_of_toPath? (h : Url.toPath? root path = some file) :
    ∃ names : List Text, (∀ n ∈ names, IsName n) ∧ file = names.foldl Path.join root := by
  obtain ⟨text, -, -, ho, rfl⟩ := Url.toPath?_eq_some_iff.mp h
  exact ⟨_, fun n hn => (ho n hn).toIsName, rfl⟩

/-- **Below the root, the same lies on both disks**: a file with the same content, or a folder on
both, or nothing that can be served. -/
theorem node_cases (h : Disk.AgreeInside root disk other) (hn : ∀ n ∈ names, IsName n)
    (hp : p = names.foldl Path.join root) :
    (∃ content, disk.node p = .ok (.file content) ∧ other.node p = .ok (.file content)) ∨
      (∃ entries entries', disk.node p = .ok (.folder entries) ∧
        other.node p = .ok (.folder entries')) ∨
      ∃ fault fault', disk.node p = .error fault ∧ other.node p = .error fault' := by
  subst hp
  have hbase : ∀ place, disk.trace (names.foldl Path.join root) = .ok place →
      ∃ base names, disk.IsBase root base ∧ place = base ++ names := by
    intro place ht
    obtain ⟨base, hb, hplace⟩ := Disk.exists_base_of_trace hn ht
    exact ⟨base, names, hb, hplace⟩
  have hfile := h.isFile_eq (names.foldl Path.join root)
  have hfolder := h.isFolder_eq (names.foldl Path.join root)
  cases hd : disk.node (names.foldl Path.join root) with
  | ok node =>
    cases node with
    | file content =>
      have hf : disk.isFile (names.foldl Path.join root) := Disk.isFile_iff.mpr ⟨content, hd⟩
      obtain ⟨content', hd', ho⟩ := h.node_eq hf hbase
      rw [hd] at hd'
      obtain rfl := Node.file.inj (Except.ok.inj hd')
      exact Or.inl ⟨content, rfl, ho⟩
    | folder entries =>
      have hf : disk.isFolder (names.foldl Path.join root) := Disk.isFolder_iff.mpr ⟨entries, hd⟩
      rw [hfolder] at hf
      obtain ⟨entries', ho⟩ := Disk.isFolder_iff.mp hf
      exact Or.inr (Or.inl ⟨entries, entries', rfl, ho⟩)
  | error fault =>
    refine Or.inr (Or.inr ⟨fault, ?_⟩)
    cases ho : other.node (names.foldl Path.join root) with
    | error fault' => exact ⟨fault', rfl, rfl⟩
    | ok node =>
      rw [Bool.eq_iff_iff, Disk.isFile_iff, Disk.isFile_iff, hd, ho] at hfile
      rw [Bool.eq_iff_iff, Disk.isFolder_iff, Disk.isFolder_iff, hd, ho] at hfolder
      cases node with
      | file content => simp at hfile
      | folder entries => simp at hfolder

theorem replyOf_eq (h : Disk.AgreeInside settings.root disk other) (path : Text) (file : Path)
    (content : Bytes) :
    replyOf disk settings path file content = replyOf other settings path file content := by
  have hrewrite := Import.rewriteSource_congr (Package.resolveUrl_eq h)
  unfold replyOf componentReply scriptReply
  simp only [hrewrite]

/-- **Disks that agree inside the root reply alike.** -/
theorem reply?_eq (h : Disk.AgreeInside settings.root disk other) (path : Text) :
    reply? disk settings path = reply? other settings path := by
  unfold reply?
  cases hp : Url.toPath? settings.root path with
  | none => rfl
  | some file =>
    dsimp only
    obtain ⟨names, hn, hfile⟩ := exists_names_of_toPath? hp
    rcases node_cases h hn hfile with ⟨content, hd, ho⟩ | ⟨_, _, hd, ho⟩ | ⟨_, _, hd, ho⟩
    · rw [hd, ho]
      dsimp only
      rw [replyOf_eq h]
    · have hindex : file.join indexFile = (names ++ [indexFile]).foldl Path.join settings.root := by
        rw [List.foldl_append, ← hfile]
        rfl
      have hn' : ∀ n ∈ names ++ [indexFile], IsName n := by
        intro n hm
        rcases List.mem_append.mp hm with hm | hm
        · exact hn n hm
        · rw [List.mem_singleton.mp hm]
          exact isName_indexFile
      rw [hd, ho]
      dsimp only
      rcases node_cases h hn' hindex with ⟨_, hd, ho⟩ | ⟨_, _, hd, ho⟩ | ⟨_, _, hd, ho⟩ <;>
        rw [hd, ho]
    · rw [hd, ho]

/-- **No content of a file outside the root gets into an answer.** -/
theorem answer_eq_of_agreeInside (h : Disk.AgreeInside settings.root disk other) (target : Text) :
    answer disk settings target = answer other settings target := by
  rw [answer_eq_direct, answer_eq_direct, direct, direct, reply?_eq h]

/-- A project whose main script imports a file that lies outside the root. -/
def climbing (secret : Bytes) : Disk where
  top := .folder [
    ("app".toList, .folder [
      ("main.js".toList, .file (Text.encode "import 'x/../../../key'".toList)),
      ("node_modules".toList, .folder [("x".toList, .folder [])])]),
    ("key.js".toList, .file secret)]
  workingFolder := []
  library := .silent

theorem agreeInside_climbing (a b : Bytes) :
    Disk.AgreeInside ⟨"app".toList⟩ (climbing a) (climbing b) where
  workingFolder := rfl
  library := rfl
  kind := by
    rintro (_ | ⟨n, names⟩)
    · rfl
    rw [Node.at?, Node.at?]
    by_cases happ : n = "app".toList
    · subst happ
      rfl
    by_cases hkey : n = "key.js".toList
    · subst hkey
      cases names <;> rfl
    · have hnone (secret : Bytes) : (climbing secret).top.entry? n = none := by
        simp only [climbing, Node.entry?, List.lookup_cons, List.lookup_nil, beq_false_of_ne happ,
          beq_false_of_ne hkey]
      rw [hnone, hnone]
  content := by
    rintro base names content (⟨hroot, -⟩ | hbase) hat
    · exact absurd hroot (by decide)
    have hplace : (climbing a).trace ⟨"app".toList⟩ = .ok ["app".toList] := rfl
    rw [hplace] at hbase
    obtain rfl := Except.ok.inj hbase
    exact hat

/-- The imported file is found, but the answer does not depend on what it holds. -/
theorem answer_eq_of_agreeInside_climbing :
    (climbing [1]).read ⟨"app/node_modules/x/../../../key.js".toList⟩ = .ok [1] ∧
      (climbing [2]).read ⟨"app/node_modules/x/../../../key.js".toList⟩ = .ok [2] ∧
      Disk.AgreeInside ⟨"app".toList⟩ (climbing [1]) (climbing [2]) ∧
      answer (climbing [1]) ⟨⟨"app".toList⟩, true⟩ "/main.js".toList =
        answer (climbing [2]) ⟨⟨"app".toList⟩, true⟩ "/main.js".toList := by
  refine ⟨by decide +kernel, by decide +kernel, agreeInside_climbing [1] [2], ?_⟩
  exact answer_eq_of_agreeInside (agreeInside_climbing [1] [2]) _

end Unbundled
