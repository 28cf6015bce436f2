import Unbundled.Package.Resolve
import Unbundled.Proofs.Disk.Places
import Unbundled.Proofs.Url.Paths

/-! # Files of packages

What a bare specifier resolves to is a file, and its path is the folder of the package extended by a
text that the specifier or the manifest has written (`exists_of_resolve`). The folder itself lies below
the root, along `node_modules` and the parts of the package name (`steps_packageFolder`); so the root
is a folder whenever a specifier resolves (`exists_folder_of_resolve`). -/

namespace Unbundled.Specifier

variable {spec first rest inside : Text}

theorem slash_not_mem_of_cut? (h : Text.cut? ['/'] spec = some (first, rest)) : '/' ∉ first := by
  induction spec generalizing first with
  | nil => exact absurd h (by simp [Text.cut?])
  | cons c t ih =>
    rw [Text.cut?] at h
    split at h
    · obtain ⟨rfl, -⟩ := Prod.mk.inj (Option.some.inj h)
      exact List.not_mem_nil
    · rename_i hc
      obtain ⟨⟨s, u⟩, ht, he⟩ := Option.map_eq_some_iff.mp h
      obtain ⟨rfl, rfl⟩ := Prod.mk.inj he
      rw [List.mem_cons, not_or]
      refine ⟨?_, ih ht⟩
      rintro rfl
      simp [Text.after?] at hc

theorem slash_not_mem_of_cut?_none (h : Text.cut? ['/'] spec = none) : '/' ∉ spec := by
  induction spec with
  | nil => exact List.not_mem_nil
  | cons c t ih =>
    rw [Text.cut?] at h
    split at h
    · exact absurd h (by simp)
    · rename_i hc
      rw [List.mem_cons, not_or]
      refine ⟨?_, ih (Option.map_eq_none_iff.mp h)⟩
      rintro rfl
      simp [Text.after?] at hc

/-- The name of a package is no absolute path. -/
theorem head?_name_ne (spec : Text) : (splitBare spec).1.head? ≠ some '/' := by
  have hhead : ∀ t : Text, '/' ∉ t → t.head? ≠ some '/' :=
    fun t ht hs => ht (List.mem_of_mem_head? hs)
  unfold splitBare
  split
  · rename_i hc
    exact hhead spec (slash_not_mem_of_cut?_none hc)
  · rename_i first rest hc
    have hfirst := slash_not_mem_of_cut? hc
    split
    · rename_i hat
      split
      · rw [hat]
        simp
      · -- the first part starts with the at sign
        rw [Text.append_of_cut? hc] at hat
        cases first with
        | nil => simp at hat
        | cons c t => exact fun hs => hhead _ hfirst hs
    · exact hhead first hfirst

theorem inside_ne_nil (h : (splitBare spec).2 = some inside) : inside ≠ [] := by
  have hempty : ∀ {t u : Text}, nonEmpty? t = some u → u ≠ [] := by
    intro t u ht
    unfold nonEmpty? at ht
    split at ht
    · exact absurd ht (by simp)
    · rename_i hn
      obtain rfl := Option.some.inj ht
      simpa using hn
  unfold splitBare at h
  split at h
  · exact absurd h (by simp)
  split at h
  · split at h
    · exact absurd h (by simp)
    · exact hempty h
  · exact hempty h

end Unbundled.Specifier

namespace Unbundled.Package

open Unbundled.Path (parts stepOf)

/-- The folder of the package that a specifier names. -/
def packageFolder (root : Path) (spec : Text) : Path :=
  (root.join storeFolder).join (Specifier.splitBare spec).1

/-- What is written for a file of a package: the path in a specifier, with or without its extension, or
the entry in the manifest, or the entry of a manifest that names none. -/
inductive Written (disk : Disk) (root : Path) (spec : Text) : Text → Prop
  | inside {t : Text} (h : (Specifier.splitBare spec).2 = some t) : Written disk root spec t
  | extended {t : Text} (h : (Specifier.splitBare spec).2 = some t) :
    Written disk root spec (t ++ scriptExtension)
  | entry {manifest : Manifest} (h : (Specifier.splitBare spec).2 = none)
    (hm : readManifest disk ((packageFolder root spec).join manifestFile) = .ok manifest) :
    Written disk root spec (dropDots manifest.entry)
  | index (h : (Specifier.splitBare spec).2 = none) : Written disk root spec Manifest.defaultEntry

variable {disk : Disk} {root p : Path} {spec name url t : Text}

/-! ### The folder of a package -/

theorem isName_storeFolder : Path.IsName storeFolder :=
  ⟨by decide, by decide, by decide, by decide⟩

theorem text_join_storeFolder_ne_nil (root : Path) : (root.join storeFolder).text ≠ [] :=
  Path.text_join_ne_nil root isName_storeFolder

theorem steps_packageFolder (root : Path) (spec : Text) :
    (packageFolder root spec).steps =
      root.steps ++ (storeFolder :: parts (Specifier.splitBare spec).1).map stepOf := by
  have hstore : stepOf storeFolder = .name storeFolder := if_neg (by decide)
  rw [packageFolder,
    Path.steps_join (text_join_storeFolder_ne_nil root) (Specifier.head?_name_ne spec),
    Path.steps_join_name root isName_storeFolder, List.map_cons, hstore, List.append_assoc]
  rfl

/-- A relative path in the folder of a package goes on from the steps of the folder. -/
theorem steps_join_packageFolder (root : Path) (spec : Text) (ht : t.head? ≠ some '/') :
    ((packageFolder root spec).join t).steps =
      (packageFolder root spec).steps ++ (parts t).map stepOf := by
  refine Path.steps_join ?_ ht
  obtain ⟨gap, -, hg⟩ :=
    Path.exists_text_join (root.join storeFolder) (Specifier.head?_name_ne spec)
  rw [packageFolder, hg]
  exact List.append_ne_nil_of_left_ne_nil (text_join_storeFolder_ne_nil root) _

/-! ### Resolution -/

theorem firstFile?_eq_some {files : List Path} (h : firstFile? disk files = some p) :
    p ∈ files ∧ disk.isFile p :=
  ⟨List.mem_of_find?_eq_some h, List.find?_some h⟩

/-- An extension may be added before or after a path is taken from a folder. -/
theorem text_join_append (p : Path) (ht : t ≠ []) (e : Text) :
    (⟨(p.join t).text ++ e⟩ : Path) = p.join (t ++ e) := by
  cases t with
  | nil => exact absurd rfl ht
  | cons c t =>
    unfold Path.join
    rw [List.cons_append, List.head?_cons, List.head?_cons]
    split_ifs
    · rfl
    · rw [List.append_assoc]
      rfl
    · rw [List.append_assoc]
      rfl

theorem resolve_of_inside (h : (Specifier.splitBare spec).2 = some t) :
    resolve disk root spec =
      if disk.isFolder (packageFolder root spec) then
        resolveInside disk (Specifier.splitBare spec).1 (packageFolder root spec) t
      else
        .error (.notFound (Specifier.splitBare spec).1
          ((packageFolder root spec).join manifestFile)) := by
  unfold resolve packageFolder
  generalize Specifier.splitBare spec = split at h
  obtain ⟨name, inside⟩ := split
  obtain rfl : inside = some t := h
  rfl

theorem resolve_of_name (h : (Specifier.splitBare spec).2 = none) :
    resolve disk root spec =
      if disk.isFile ((packageFolder root spec).join manifestFile) then
        resolveEntry disk (Specifier.splitBare spec).1 (packageFolder root spec)
          ((packageFolder root spec).join manifestFile)
      else
        .error (.notFound (Specifier.splitBare spec).1
          ((packageFolder root spec).join manifestFile)) := by
  unfold resolve packageFolder
  generalize Specifier.splitBare spec = split at h
  obtain ⟨name, inside⟩ := split
  obtain rfl : inside = none := h
  rfl

theorem resolveInside_ok {folder : Path} (h : resolveInside disk name folder t = .ok p) :
    disk.isFile p ∧ (p = folder.join t ∨ p = ⟨(folder.join t).text ++ scriptExtension⟩) := by
  unfold resolveInside at h
  dsimp only at h
  split at h
  · rename_i file hf
    obtain rfl := Except.ok.inj h
    obtain ⟨hm, hfile⟩ := firstFile?_eq_some hf
    exact ⟨hfile, by simpa using hm⟩
  · exact absurd h (by simp)

theorem resolveEntry_ok {folder manifestPath : Path}
    (h : resolveEntry disk name folder manifestPath = .ok p) :
    disk.isFile p ∧ ∃ manifest, readManifest disk manifestPath = .ok manifest ∧
      (p = folder.join (dropDots manifest.entry) ∨ p = folder.join Manifest.defaultEntry) := by
  unfold resolveEntry at h
  obtain ⟨manifest, hm, h⟩ := Disk.exists_of_bind_eq_ok h
  dsimp only at h
  split at h
  · rename_i file hf
    obtain rfl := Except.ok.inj h
    obtain ⟨hmem, hfile⟩ := firstFile?_eq_some hf
    exact ⟨hfile, manifest, hm, by simpa using hmem⟩
  · exact absurd h (by simp)

/-- **What a specifier resolves to.** -/
theorem exists_of_resolve (h : resolve disk root spec = .ok p) :
    disk.isFile p ∧ ∃ r, Written disk root spec r ∧
      p = (packageFolder root spec).join r := by
  cases hinside : (Specifier.splitBare spec).2 with
  | some t =>
    rw [resolve_of_inside hinside] at h
    split at h
    · obtain ⟨hfile, rfl | rfl⟩ := resolveInside_ok h
      · exact ⟨hfile, t, .inside hinside, rfl⟩
      · exact ⟨hfile, t ++ scriptExtension, .extended hinside,
          text_join_append _ (Specifier.inside_ne_nil hinside) _⟩
    · exact absurd h (by simp)
  | none =>
    rw [resolve_of_name hinside] at h
    split at h
    · obtain ⟨hfile, manifest, hm, rfl | rfl⟩ := resolveEntry_ok h
      · exact ⟨hfile, _, .entry hinside hm, rfl⟩
      · exact ⟨hfile, _, .index hinside, rfl⟩
    · exact absurd h (by simp)

theorem exists_of_resolveUrl (h : resolveUrl disk root spec = .ok url) :
    ∃ p names, resolve disk root spec = .ok p ∧ Url.Below root p names ∧
      url = Url.ofNames names := by
  obtain ⟨p, hp, hu⟩ := Disk.exists_of_bind_eq_ok h
  obtain ⟨names, hb, rfl⟩ := Url.ofPath_eq_ok_iff.mp hu
  exact ⟨p, names, hp, hb, rfl⟩

/-- A specifier resolves only if something lies in the store of packages. -/
theorem exists_trace_of_resolve (h : resolve disk root spec = .ok p) :
    ∃ q place l, disk.trace q = .ok place ∧
      q.steps = root.steps ++ (storeFolder :: l).map stepOf := by
  have hfolder := steps_packageFolder root spec
  cases hinside : (Specifier.splitBare spec).2 with
  | some t =>
    rw [resolve_of_inside hinside] at h
    split at h
    · rename_i hf
      obtain ⟨place, ht⟩ := Disk.exists_trace_of_isFolder hf
      exact ⟨_, place, _, ht, hfolder⟩
    · exact absurd h (by simp)
  | none =>
    rw [resolve_of_name hinside] at h
    split at h
    · rename_i hf
      obtain ⟨place, ht, -⟩ := Disk.exists_trace_of_isFile hf
      refine ⟨_, place, parts (Specifier.splitBare spec).1 ++ parts manifestFile, ht, ?_⟩
      rw [steps_join_packageFolder root spec (by decide), hfolder, List.append_assoc,
        ← List.map_append]
      rfl
    · exact absurd h (by simp)

theorem exists_folder_of_resolve (h : resolve disk root spec = .ok p) :
    ∃ base, disk.trail root = .ok base ∧ Disk.HasFolder disk.top base := by
  obtain ⟨q, place, l, ht, hs⟩ := exists_trace_of_resolve h
  obtain ⟨base, hb, hw⟩ := Disk.exists_of_trail (Disk.trail_of_trace ht) hs
  obtain ⟨next, hm, -⟩ := Disk.exists_of_walk_cons hw
  exact ⟨base, hb, Disk.hasFolder_of_move hm⟩

end Unbundled.Package
