import Unbundled.Proofs.Package.Files

/-! # Imports and the folder of their package

The URL of a bare specifier lies inside the folder of its package unless what is written for the file
is an absolute path: joined to the folder, such a path takes its place. Then the URL lies inside only
if that path itself does (`inside_iff`). Below a relative root this never happens, since no absolute
path lies there. -/

namespace Unbundled.Package

open Unbundled.Path (parts stepOf Step)

/-- Whether a URL leads into the package that a specifier names. -/
def Inside (spec url : Text) : Prop :=
  (storeFolder :: parts (Specifier.splitBare spec).1) <+: parts url

variable {disk : Disk} {root : Path} {spec url r : Text} {names : List Text}

/-- No dot stands between the root and a file of a package. -/
theorem steps_of_below
    (h : Url.Below root ((packageFolder root spec).join r) names) :
    ((packageFolder root spec).join r).steps = root.steps ++ names.map Step.name := by
  obtain ⟨rest, hs, hf⟩ := h
  have hhere : Step.here ∉ rest := by
    -- an absolute path takes the place of the folder
    by_cases hr : r.head? = some '/'
    · intro hm
      rw [Path.join_of_absolute _ hr] at hs
      refine Path.here_not_mem_steps (p := ⟨r⟩) (by simp [Path.isAbsolute, hr]) ?_
      rw [hs]
      exact List.mem_append_right _ hm
    · rw [steps_join_packageFolder root spec hr, steps_packageFolder root spec, List.append_assoc,
        List.append_cancel_left_eq, ← List.map_append] at hs
      rw [← hs]
      exact Path.here_not_mem_map_stepOf _
  have hself : rest.filter (· ≠ .here) = rest := by
    rw [List.filter_eq_self]
    intro x hx
    refine decide_eq_true ?_
    rintro rfl
    exact hhere hx
  rw [hs, ← hf, hself]

/-- A URL leads into a package if the path of its file starts with the folder. -/
theorem inside_iff_steps
    (h : Url.Below root ((packageFolder root spec).join r) names) :
    Inside spec (Url.ofNames names) ↔
      (packageFolder root spec).steps <+: ((packageFolder root spec).join r).steps := by
  rw [steps_of_below h, steps_packageFolder root spec, List.prefix_append_right_inj,
    ← Path.map_stepOf h.isName, Inside, Url.parts_ofNames h.isName]
  constructor
  · exact fun hp => hp.map stepOf
  · intro hp
    have hparts := hp.filterMap Step.part?
    rwa [Path.filterMap_map_stepOf, Path.filterMap_map_stepOf] at hparts

/-- **When an import leads into its package**: unless an absolute path is written for the file, which
only an absolute root lets pass, and this path does not start with the folder of the package. -/
theorem inside_iff (h : resolveUrl disk root spec = .ok url) :
    ∃ r, Written disk root spec r ∧
      resolve disk root spec = .ok ((packageFolder root spec).join r) ∧
      (r.head? = some '/' → root.isAbsolute) ∧
      (Inside spec url ↔ r.head? ≠ some '/' ∨
        (packageFolder root spec).steps <+: Path.steps ⟨r⟩) := by
  obtain ⟨p, names, hp, hb, rfl⟩ := exists_of_resolveUrl h
  obtain ⟨-, r, hw, rfl⟩ := exists_of_resolve hp
  refine ⟨r, hw, hp, ?_, ?_⟩
  · intro hr
    have hmem : Step.root ∈ ((packageFolder root spec).join r).steps := by
      rw [Path.join_of_absolute _ hr]
      exact (Path.isAbsolute_iff_mem _).mp (by simp [Path.isAbsolute, hr])
    rw [steps_of_below hb, List.mem_append] at hmem
    refine (Path.isAbsolute_iff_mem root).mpr (hmem.resolve_right fun hn => ?_)
    obtain ⟨n, -, hn⟩ := List.mem_map.mp hn
    exact absurd hn (by simp)
  · rw [inside_iff_steps hb]
    by_cases hr : r.head? = some '/'
    · rw [Path.join_of_absolute _ hr]
      exact (or_iff_right (not_not.mpr hr)).symm
    · refine iff_of_true ?_ (Or.inl hr)
      rw [steps_join_packageFolder root spec hr]
      exact List.prefix_append _ _

/-- A project with a package `x` whose manifest names a file of the project. -/
def straying : Disk where
  top := .folder [("app".toList, .folder [
    ("node_modules".toList, .folder [("x".toList, .folder [
      ("package.json".toList, .file (Text.encode "\x7b\"main\":\"/app/src/key.js\"\x7d".toList)),
      ("index.js".toList, .file [])])]),
    ("src".toList, .folder [("key.js".toList, .file [])])])]
  workingFolder := []
  library := .silent

/-- A manifest makes an import lead to a file elsewhere in the project. -/
theorem exists_outside : Specifier.isBare "x".toList ∧
    resolveUrl straying ⟨"/app".toList⟩ "x".toList = .ok "/src/key.js".toList ∧
    ¬ Inside "x".toList "/src/key.js".toList := by
  refine ⟨by decide, by decide +kernel, ?_⟩
  unfold Inside
  decide +kernel

/-- A file in the folder of the package. -/
theorem inside_iff_deep :
    resolveUrl straying ⟨"app".toList⟩ "x/index".toList = .ok "/node_modules/x/index.js".toList ∧
      Inside "x/index".toList "/node_modules/x/index.js".toList := by
  have h : resolveUrl straying ⟨"app".toList⟩ "x/index".toList =
      .ok "/node_modules/x/index.js".toList := by decide +kernel
  obtain ⟨r, -, -, ha, hi⟩ := inside_iff h
  exact ⟨h, hi.mpr (Or.inl fun hr => absurd (ha hr) (by decide))⟩

end Unbundled.Package
