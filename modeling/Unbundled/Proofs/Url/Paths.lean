import Mathlib.Data.List.Basic
import Unbundled.Url
import Unbundled.Proofs.Path.Steps

/-! # URLs of paths

A path has a URL exactly if it lies below the root along names (`Below`), dots that stand for a folder
itself aside, and the URL consists of these names (`ofPath_eq_ok_iff`). The names are found again as the
parts of the URL (`parts_ofNames`). -/

namespace Unbundled.Url

open Unbundled.Path (IsName parts Step)

/-- Whether a path lies below the root along some names. -/
def Below (root p : Path) (names : List Text) : Prop :=
  ∃ rest, p.steps = root.steps ++ rest ∧ rest.filter (· ≠ .here) = names.map Step.name

variable {root p : Path} {names : List Text} {l : List Step} {u : Text}

theorem names?_eq_some_iff : names? l = some names ↔ l.filter (· ≠ .here) = names.map Step.name := by
  induction l generalizing names with
  | nil =>
    rw [names?, List.filter_nil, Option.some.injEq, eq_comm, eq_comm (a := ([] : List Step)),
      List.map_eq_nil_iff]
  | cons x l ih =>
    cases x with
    | here => rw [names?, ih]; rfl
    | root =>
      refine iff_of_false (by simp [names?]) fun h => ?_
      cases names <;> simp at h
    | up =>
      refine iff_of_false (by simp [names?]) fun h => ?_
      cases names <;> simp at h
    | name n =>
      rw [names?, Option.map_eq_some_iff, List.filter_cons_of_pos (by simp)]
      constructor
      · rintro ⟨rest, hr, rfl⟩
        rw [ih.mp hr]
        rfl
      · intro h
        cases names with
        | nil => exact absurd h (by simp)
        | cons m rest =>
          rw [List.map_cons, List.cons.injEq, Step.name.injEq] at h
          obtain ⟨rfl, hrest⟩ := h
          exact ⟨rest, ih.mpr hrest, rfl⟩

theorem below?_eq_some_iff {rest : List Step} :
    p.below? root = some rest ↔ p.steps = root.steps ++ rest := by
  rw [Path.below?, List.isPrefixOf?_eq_some_iff_append_eq, eq_comm]

/-- **Which paths have a URL, and which URL.** -/
theorem ofPath_eq_ok_iff :
    ofPath root p = .ok u ↔ ∃ names, Below root p names ∧ u = ofNames names := by
  have hnames : ∀ names, (p.below? root).bind names? = some names ↔ Below root p names := by
    intro names
    rw [Option.bind_eq_some_iff]
    simp only [below?_eq_some_iff, names?_eq_some_iff]
    rfl
  unfold ofPath
  constructor
  · intro h
    split at h
    · rename_i names hn
      exact ⟨names, (hnames names).mp hn, (Except.ok.inj h).symm⟩
    · exact absurd h (by simp)
  · rintro ⟨names, hb, rfl⟩
    rw [(hnames names).mpr hb]

theorem Below.steps (h : Below root p names) :
    p.steps.filter (· ≠ .here) = root.steps.filter (· ≠ .here) ++ names.map Step.name := by
  obtain ⟨rest, hs, hr⟩ := h
  rw [hs, List.filter_append, hr]

theorem Below.parts (h : Below root p names) : parts p.text = parts root.text ++ names := by
  have hnames : (names.map Step.name).filterMap Step.part? = names := by
    rw [List.filterMap_map]
    exact List.filterMap_some
  rw [Path.parts_eq_filterMap, ← Path.filterMap_filter, h.steps, List.filterMap_append,
    Path.filterMap_filter, ← Path.parts_eq_filterMap, hnames]

theorem Below.isName (h : Below root p names) : ∀ n ∈ names, IsName n := by
  obtain ⟨rest, hs, hr⟩ := h
  intro n hn
  have hm : Step.name n ∈ rest.filter (· ≠ .here) := by
    rw [hr]
    exact List.mem_map_of_mem hn
  refine Path.isName_of_mem_steps (p := p) ?_
  rw [hs]
  exact List.mem_append_right _ (List.mem_filter.mp hm).1

theorem parts_ofNames (h : ∀ n ∈ names, IsName n) : parts (ofNames names) = names := by
  cases names with
  | nil => rfl
  | cons n rest => exact Path.parts_flatMap h

end Unbundled.Url
