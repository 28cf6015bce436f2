import Mathlib.Data.List.TakeWhile
import Unbundled.Url
import Unbundled.Proofs.Disk.Places
import Unbundled.Proofs.Text.Percent
import Unbundled.Proofs.Text.Utf8

/-! # Where request paths lead

A request path is read to a text (`Reads`): what comes before the query and the fragment, with each
escape replaced by its byte. It has a file exactly if this text starts with a slash and no part of it is
forbidden, and then the file is the root extended by the parts (`toPath?_eq_some_iff`). All of them are
names that a folder may list, so whatever the disk holds, the file lies below the root
(`toPath?_below`). -/

namespace Unbundled.Url

open Unbundled.Path (IsName parts isIdle)

/-- The text that a request path is read to. -/
def Reads (url text : Text) : Prop := Percent.Stands (pathPart url) (Text.encode text)

/-- A name that leads one step down, on any system. -/
structure IsOrdinary (s : Text) : Prop extends IsName s where
  backslash : '\\' ∉ s
  nul : '\x00' ∉ s

variable {root p : Path} {url text s t u : Text}

theorem pathPart_pathPart (url : Text) : pathPart (pathPart url) = pathPart url := List.takeWhile_idem

/-- The query and the fragment do not matter. -/
theorem toPath?_pathPart (root : Path) (url : Text) : toPath? root (pathPart url) = toPath? root url := by
  rw [toPath?, toPath?, pathPart_pathPart]

theorem reads_iff : Reads url text ↔ Utf8.decode (Percent.decode (pathPart url)) = .ok text := by
  rw [Reads, Percent.stands_iff, Utf8.decode_eq_ok_iff]

theorem Reads.unique (ht : Reads url t) (hu : Reads url u) : t = u := by
  rw [reads_iff] at ht hu
  rw [ht] at hu
  exact Except.ok.inj hu

theorem isForbidden_iff : isForbidden s ↔ s = ['.', '.'] ∨ '\\' ∈ s ∨ '\x00' ∈ s := by
  simp [isForbidden, or_assoc]

theorem isOrdinary_of_mem_parts (hs : s ∈ parts t) (hf : ¬ isForbidden s) : IsOrdinary s := by
  obtain ⟨-, hn, hd⟩ := Path.mem_parts_iff.mp hs
  rw [isForbidden_iff, not_or, not_or] at hf
  obtain ⟨hdots, hb, hz⟩ := hf
  exact ⟨⟨hn, hd, hdots, Path.slash_not_mem_of_mem_parts hs⟩, hb, hz⟩

theorem IsOrdinary.not_isForbidden (h : IsOrdinary s) : ¬ isForbidden s := by
  rw [isForbidden_iff, not_or, not_or]
  exact ⟨h.ne_dots, h.backslash, h.nul⟩

theorem toPath?_of_reads (root : Path) (h : Reads url ('/' :: t)) :
    toPath? root url =
      if (parts t).any isForbidden then none else some ((parts t).foldl Path.join root) := by
  rw [toPath?, reads_iff.mp h]
  rfl

/-- **Which request paths have a file, and which file.** -/
theorem toPath?_eq_some_iff : toPath? root url = some p ↔
    ∃ text, Reads url text ∧ text.head? = some '/' ∧ (∀ s ∈ parts text, IsOrdinary s) ∧
      p = (parts text).foldl Path.join root := by
  constructor
  · intro h
    cases hd : Utf8.decode (Percent.decode (pathPart url)) with
    | error e =>
      rw [toPath?, hd] at h
      exact absurd h (by simp)
    | ok text =>
      by_cases hs : text.head? = some '/'
      · obtain ⟨t, rfl⟩ := List.head?_eq_some_iff.mp hs
        rw [toPath?_of_reads root (reads_iff.mpr hd)] at h
        split at h
        · exact absurd h (by simp)
        · rename_i hf
          rw [List.any_eq_true, not_exists] at hf
          refine ⟨'/' :: t, reads_iff.mpr hd, hs, ?_, ?_⟩
          · intro s hm
            rw [Path.parts_slash] at hm
            exact isOrdinary_of_mem_parts hm fun hs => hf s ⟨hm, hs⟩
          · rw [Path.parts_slash]
            exact (Option.some.inj h).symm
      · rw [toPath?, hd] at h
        split at h
        · rename_i heq
          rw [Except.ok.inj heq] at hs
          exact absurd rfl hs
        · exact absurd h (by simp)
  · rintro ⟨text, hr, hs, ho, rfl⟩
    obtain ⟨t, rfl⟩ := List.head?_eq_some_iff.mp hs
    rw [toPath?_of_reads root hr, if_neg, Path.parts_slash]
    rw [List.any_eq_true]
    rintro ⟨s, hm, hf⟩
    rw [← Path.parts_slash] at hm
    exact (ho s hm).not_isForbidden hf

theorem exists_forbidden_iff :
    (∃ s ∈ text.splitOn '/', s = ['.', '.'] ∨ '\\' ∈ s ∨ '\x00' ∈ s) ↔
      ∃ s ∈ parts text, ¬ IsOrdinary s := by
  constructor
  · rintro ⟨s, hm, hf⟩
    refine ⟨s, Path.mem_parts_iff.mpr ⟨hm, ?_, ?_⟩, fun ho => ?_⟩
    · rintro rfl
      simp at hf
    · rintro rfl
      simp at hf
    · exact ho.not_isForbidden (isForbidden_iff.mpr hf)
  · rintro ⟨s, hm, hf⟩
    refine ⟨s, (Path.mem_parts_iff.mp hm).1, ?_⟩
    rw [← isForbidden_iff]
    by_contra hn
    exact hf (isOrdinary_of_mem_parts hm hn)

/-- Which request paths have no file. -/
theorem toPath?_eq_none_iff : toPath? root url = none ↔
    (¬ ∃ text, Reads url text) ∨
      ∃ text, Reads url text ∧ (text.head? ≠ some '/' ∨ ∃ s ∈ parts text, ¬ IsOrdinary s) := by
  rw [Option.eq_none_iff_forall_ne_some]
  constructor
  · intro h
    by_cases hr : ∃ text, Reads url text
    · obtain ⟨text, hr⟩ := hr
      refine Or.inr ⟨text, hr, ?_⟩
      by_contra hn
      rw [not_or, not_not, not_exists] at hn
      refine h _ (toPath?_eq_some_iff.mpr ⟨text, hr, hn.1, fun s hm => ?_, rfl⟩)
      by_contra ho
      exact hn.2 s ⟨hm, ho⟩
    · exact Or.inl hr
  · intro h p hp
    obtain ⟨text, hr, hs, ho, -⟩ := toPath?_eq_some_iff.mp hp
    rcases h with h | ⟨t, ht, h⟩
    · exact h ⟨text, hr⟩
    · obtain rfl := hr.unique ht
      rcases h with h | ⟨s, hm, hn⟩
      · exact h hs
      · exact hn (ho s hm)

/-- **A request path leads below the root or nowhere.** Its file is the root extended by the parts of
the text that is read, which are ordinary names; so where the file lies is where the root lies and
these names below it. -/
theorem toPath?_below (root : Path) (url : Text) :
    (∀ p, toPath? root url = some p → ∃ text, Reads url text ∧ (∀ s ∈ parts text, IsOrdinary s) ∧
      p = (parts text).foldl Path.join root ∧
      p.steps = root.steps ++ (parts text).map .name ∧
      ∀ disk place, Disk.trace disk p = .ok place →
        ∃ base, (root.text = [] ∧ base = disk.workingFolder ∨ disk.trace root = .ok base) ∧
          place = base ++ parts text) ∧
    (toPath? root url = none ↔ (¬ ∃ text, Reads url text) ∨
      ∃ text, Reads url text ∧ (text.head? ≠ some '/' ∨
        ∃ s ∈ text.splitOn '/', s = ['.', '.'] ∨ '\\' ∈ s ∨ '\x00' ∈ s)) := by
  constructor
  · intro p hp
    obtain ⟨text, hr, -, ho, rfl⟩ := toPath?_eq_some_iff.mp hp
    have hn : ∀ n ∈ parts text, IsName n := fun n hm => (ho n hm).toIsName
    exact ⟨text, hr, ho, rfl, Path.steps_foldl_join hn root,
      fun disk place h => Disk.exists_base_of_trace hn h⟩
  · rw [toPath?_eq_none_iff]
    simp only [exists_forbidden_iff]

/-- An escaped slash separates names like any other. -/
theorem toPath?_below_escaped :
    toPath? ⟨"app".toList⟩ "/src%2Fmain.js?t=1".toList = some ⟨"app/src/main.js".toList⟩ ∧
      ∃ text, Reads "/src%2Fmain.js?t=1".toList text ∧ (∀ s ∈ parts text, IsOrdinary s) ∧
        Path.steps ⟨"app/src/main.js".toList⟩ =
          Path.steps ⟨"app".toList⟩ ++ (parts text).map .name := by
  have hp : toPath? ⟨"app".toList⟩ "/src%2Fmain.js?t=1".toList =
      some ⟨"app/src/main.js".toList⟩ := by decide +kernel
  obtain ⟨text, hr, ho, -, hs, -⟩ := (toPath?_below _ _).1 _ hp
  exact ⟨hp, text, hr, ho, hs⟩

end Unbundled.Url
