import Unbundled.Proofs.Disk.Inside
import Unbundled.Proofs.Package.Files

/-! # What resolution reads

Resolution asks of many paths whether a file lies there, also outside the root: an entry or a path
inside a package may be absolute or climb. But it reads manifests only, and a manifest always lies
inside the root: the name of a package goes up at most one step, and the store of packages lies one
step below the root (`exists_base_of_manifest`). So disks that agree inside the root resolve every
specifier alike (`resolveUrl_eq`). -/

namespace Unbundled.Specifier

/-- A package name has no slash, or one slash and an at sign at its front. -/
theorem name_cases (spec : Text) : '/' ∉ (splitBare spec).1 ∨
    ∃ first second, (splitBare spec).1 = first ++ '/' :: second ∧ first.head? = some '@' ∧
      '/' ∉ first ∧ '/' ∉ second := by
  unfold splitBare
  split
  · rename_i hc
    exact Or.inl (slash_not_mem_of_cut?_none hc)
  · rename_i first rest hc
    have hfirst := slash_not_mem_of_cut? hc
    split
    · rename_i hat
      have hspec : spec = first ++ '/' :: rest := by
        rw [Text.append_of_cut? hc, List.append_assoc]
        rfl
      have hhead : first.head? = some '@' := by
        -- the first part is not empty, since it would leave the slash in front
        cases first with
        | nil =>
          rw [hspec] at hat
          exact absurd hat (by simp)
        | cons c t => rwa [hspec] at hat
      split
      · rename_i hrest
        exact Or.inr ⟨first, rest, hspec, hhead, hfirst, slash_not_mem_of_cut?_none hrest⟩
      · rename_i second tail hrest
        exact Or.inr ⟨first, second, rfl, hhead, hfirst, slash_not_mem_of_cut? hrest⟩
    · exact Or.inl hfirst

end Unbundled.Specifier

namespace Unbundled.Package

open Unbundled.Path (parts stepOf isIdle)
open Unbundled.Disk (staysInside)

variable {disk other : Disk} {root p : Path} {spec name t : Text} {place l : List Text}

/-! ### Where manifests lie -/

theorem staysInside_parts (hl : ∀ depth, staysInside depth l) (ht : '/' ∉ t) (depth : Nat) :
    staysInside (depth + 1) (parts t ++ l) := by
  rw [Path.parts_of_slash_not_mem ht]
  split
  · exact hl _
  · exact Disk.staysInside_cons hl t depth

/-- From the store of packages, the way to a manifest never leads above the root. -/
theorem staysInside_manifest (spec : Text) :
    staysInside 1 (parts (Specifier.splitBare spec).1 ++ parts manifestFile) := by
  have hparts : parts manifestFile = [manifestFile] := by decide
  have hfile : ∀ depth, staysInside depth (parts manifestFile) := by
    intro depth
    rw [hparts, staysInside, if_neg (by decide), if_neg (by decide), staysInside]
  rcases Specifier.name_cases spec with hn | ⟨first, second, hn, hat, hfirst, hsecond⟩
  · exact staysInside_parts hfile hn 0
  · -- the first part is a name of its own, since it starts with the at sign
    obtain ⟨t, rfl⟩ := List.head?_eq_some_iff.mp hat
    have hidle : ¬ isIdle ('@' :: t) := by
      rw [Path.isIdle_iff]
      simp
    have hdots : ('@' :: t) ≠ ['.', '.'] := by simp
    rw [hn, Path.parts_append, Path.parts_of_slash_not_mem hfirst, if_neg hidle, List.append_assoc,
      List.singleton_append, staysInside, if_neg hidle, if_neg hdots]
    exact staysInside_parts hfile hsecond 1

/-- **A manifest lies inside the root.** -/
theorem exists_base_of_manifest
    (h : disk.trace ((packageFolder root spec).join manifestFile) = .ok place) :
    ∃ base names, disk.IsBase root base ∧ place = base ++ names := by
  have hs : ((packageFolder root spec).join manifestFile).steps = root.steps ++
      (storeFolder :: (parts (Specifier.splitBare spec).1 ++ parts manifestFile)).map stepOf := by
    rw [steps_join_packageFolder root spec (by decide), steps_packageFolder, List.append_assoc,
      ← List.map_append]
    rfl
  obtain ⟨base, hbase, hw⟩ := Disk.exists_of_trail (Disk.trail_of_trace h) hs
  obtain ⟨next, hm, hw⟩ := Disk.exists_of_walk_cons hw
  have hnul : '\x00' ∉ root.text := by
    have hz := (Disk.trace_eq_ok_iff.mp h).1
    rw [Disk.nul_iff, Path.parts_of_steps_append hs] at hz
    rw [Disk.nul_iff]
    rintro ⟨s, hs, hc⟩
    exact hz ⟨s, List.mem_append_left _ hs, hc⟩
  rw [Disk.eq_append_of_move isName_storeFolder hm] at hw
  obtain ⟨names, rfl⟩ := Disk.exists_of_walk_staysInside hw (staysInside_manifest spec)
  exact ⟨base, names, Disk.isBase_of_trail hbase (Disk.hasFolder_of_move hm) hnul, rfl⟩

/-! ### Disks that agree inside the root -/

theorem readManifest_eq (h : Disk.AgreeInside root disk other)
    (hfile : disk.isFile ((packageFolder root spec).join manifestFile)) :
    readManifest disk ((packageFolder root spec).join manifestFile) =
      readManifest other ((packageFolder root spec).join manifestFile) := by
  obtain ⟨content, hd, ho⟩ := h.node_eq hfile fun place => exists_base_of_manifest
  rw [readManifest, readManifest, Disk.readText, Disk.readText, Disk.read_of_node hd,
    Disk.read_of_node ho, h.library]

theorem firstFile?_eq (h : disk.SameTree other) (files : List Path) :
    firstFile? disk files = firstFile? other files := by
  rw [firstFile?, firstFile?, funext h.isFile_eq]

theorem resolve_eq (h : Disk.AgreeInside root disk other) (spec : Text) :
    resolve disk root spec = resolve other root spec := by
  cases hinside : (Specifier.splitBare spec).2 with
  | some t =>
    rw [resolve_of_inside hinside, resolve_of_inside hinside, h.isFolder_eq, resolveInside,
      resolveInside, firstFile?_eq h.toSameTree]
  | none =>
    rw [resolve_of_name hinside, resolve_of_name hinside, ← h.isFile_eq]
    split
    · rename_i hfile
      rw [resolveEntry, resolveEntry, readManifest_eq h hfile]
      simp only [firstFile?_eq h.toSameTree]
    · rfl

/-- **Disks that agree inside the root resolve every specifier alike.** -/
theorem resolveUrl_eq (h : Disk.AgreeInside root disk other) (spec : Text) :
    resolveUrl disk root spec = resolveUrl other root spec := by
  rw [resolveUrl, resolveUrl, resolve_eq h]

end Unbundled.Package
