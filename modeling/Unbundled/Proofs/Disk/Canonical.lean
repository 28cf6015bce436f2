import Unbundled.Proofs.Disk.Inside

/-! # Absolute paths

The absolute form of a path names the place that the path leads to, from the top. It leads back to
this place (`trace_pathOf`), since a walk only ever comes to places that can be reached by names
alone, one step down for each (`Reached.walk_to`). So a path that leads to a folder opens it: its
absolute form is the path of this very folder (`opens_iff`). -/

namespace Unbundled.Disk

open Unbundled.Path (IsName parts isIdle)

variable {disk : Disk} {top : Node} {p r : Path} {place next : List Text} {l : List Text} {s : Text}

/-! ### Places that are reached by names -/

/-- A place that its own names lead to from the top, each of which a path can hold. -/
structure Reached (top : Node) (place : List Text) : Prop where
  walk : walk top [] place = .ok place
  isName : ∀ n ∈ place, IsName n
  nul : ∀ n ∈ place, '\x00' ∉ n

theorem walk_append {mid l' : List Text} (h : walk top place l = .ok mid) :
    walk top place (l ++ l') = walk top mid l' := by
  rw [walk_eq_foldlM, List.foldlM_append, ← walk_eq_foldlM, h, walk_eq_foldlM top mid]
  rfl

theorem reached_nil (top : Node) : Reached top [] :=
  ⟨rfl, fun _ h => absurd h List.not_mem_nil, fun _ h => absurd h List.not_mem_nil⟩

theorem Reached.dropLast (h : Reached top place) : Reached top place.dropLast := by
  rcases List.eq_nil_or_concat place with rfl | ⟨front, last, rfl⟩
  · exact h
  rw [List.concat_eq_append, List.dropLast_concat]
  have hw := h.walk
  have hmem (n : Text) (hn : n ∈ front) : n ∈ front.concat last := by
    rw [List.concat_eq_append]
    exact List.mem_append_left _ hn
  have hname (n : Text) (hn : n ∈ front) := h.isName n (hmem n hn)
  rw [List.concat_eq_append] at hw
  obtain ⟨mid, hmid, -⟩ := exists_of_walk_append hw
  obtain rfl : mid = front := eq_append_of_walk hname hmid
  exact ⟨hmid, hname, fun n hn => h.nul n (hmem n hn)⟩

/-- **One segment of a path leads to a place that is reached by names.** -/
theorem Reached.move (h : Reached top place) (hslash : '/' ∉ s) (hnul : '\x00' ∉ s)
    (hm : move top place s = .ok next) : Reached top next := by
  rcases move_cases hm with ⟨-, rfl⟩ | ⟨-, -, rfl⟩ | ⟨hi, hd, rfl⟩
  · exact h
  · exact h.dropLast
  · have hs : IsName s := by
      rw [Path.isIdle_iff, not_or] at hi
      exact ⟨hi.1, hi.2, hd, hslash⟩
    refine ⟨?_, ?_, ?_⟩
    · rw [walk_append h.walk, walk_cons, hm]
      rfl
    · intro n hn
      exact (List.mem_append.mp hn).elim (h.isName n) fun hn => List.mem_singleton.mp hn ▸ hs
    · intro n hn
      exact (List.mem_append.mp hn).elim (h.nul n) fun hn => List.mem_singleton.mp hn ▸ hnul

/-- **A walk comes to places that are reached by names.** -/
theorem Reached.walk_to (h : Reached top place) (hslash : ∀ s ∈ l, '/' ∉ s)
    (hnul : ∀ s ∈ l, '\x00' ∉ s) (hw : Disk.walk top place l = .ok next) : Reached top next := by
  induction l generalizing place with
  | nil => exact Except.ok.inj hw ▸ h
  | cons s l ih =>
    obtain ⟨mid, hm, hw⟩ := exists_of_walk_cons hw
    refine ih (h.move (hslash s List.mem_cons_self) (hnul s List.mem_cons_self) hm) ?_ ?_ hw
    · exact fun t ht => hslash t (List.mem_cons_of_mem s ht)
    · exact fun t ht => hnul t (List.mem_cons_of_mem s ht)

/-- Paths lead to places that are reached by names, if the working folder is one. -/
theorem reached_of_trace (hwork : Reached disk.top disk.workingFolder)
    (h : disk.trace p = .ok place) : Reached disk.top place := by
  obtain ⟨hz, -, hw⟩ := trace_eq_ok_iff.mp h
  have hstart : Reached disk.top (disk.start p) := by
    unfold start
    split
    · exact reached_nil disk.top
    · exact hwork
  refine hstart.walk_to (fun s hs => Path.slash_not_mem_of_mem_splitOn hs) (fun s hs hn => ?_) hw
  exact hz ((Path.mem_iff_mem_splitOn (by decide)).mpr ⟨s, hs, hn⟩)

/-! ### The path of a place -/

theorem parts_pathOf (h : ∀ n ∈ place, IsName n) : parts (pathOf place).text = place := by
  cases place with
  | nil => rfl
  | cons n place => exact Path.parts_flatMap h

theorem start_pathOf (disk : Disk) (place : List Text) : disk.start (pathOf place) = [] := by
  cases place <;> rfl

theorem trail_pathOf (h : Reached disk.top place) : disk.trail (pathOf place) = .ok place := by
  rw [trail, start_pathOf, parts_pathOf h.isName]
  exact h.walk

/-- **The path of a folder leads to it.** -/
theorem trace_pathOf (h : Reached disk.top place) (hf : HasFolder disk.top place) :
    disk.trace (pathOf place) = .ok place := by
  refine trace_of_trail (trail_pathOf h) ?_ ?_ (Or.inl hf)
  · rw [nul_iff, parts_pathOf h.isName]
    rintro ⟨n, hn, hz⟩
    exact h.nul n hn hz
  · cases place <;> exact List.cons_ne_nil _ _

theorem isFolder_pathOf_iff (h : Reached disk.top place)
    (hlen : Text.bytes (pathOf place).text ≤ maxPath) :
    disk.isFolder (pathOf place) ↔ HasFolder disk.top place := by
  rw [isFolder_iff]
  constructor
  · rintro ⟨entries, hn⟩
    obtain ⟨place', ht, hat⟩ := exists_trace_of_node hn
    obtain rfl := Except.ok.inj ((trail_pathOf h).symm.trans (trail_of_trace ht))
    exact ⟨entries, hat⟩
  · intro hf
    obtain ⟨entries, hat⟩ := hf
    refine ⟨entries, node_eq_ok_iff.mpr ⟨place, ?_, hat⟩⟩
    rw [locate, if_neg (by simp; omega)]
    exact trace_pathOf h ⟨entries, hat⟩

/-! ### Folders that can be opened -/

/-- A path leads to a folder, and `r` is its absolute form. -/
def Opens (disk : Disk) (p r : Path) : Prop := disk.canonical p = .ok r ∧ disk.isFolder r

theorem canonical_eq_ok_iff : disk.canonical p = .ok r ↔
    ∃ place, disk.trace p = .ok place ∧ r = pathOf place ∧ Text.bytes r.text ≤ maxPath := by
  unfold canonical
  constructor
  · intro h
    obtain ⟨place, ht, hr⟩ := exists_of_bind_eq_ok h
    split at hr
    · exact absurd hr (by simp)
    · obtain rfl := Except.ok.inj hr
      exact ⟨place, ht, rfl, by omega⟩
  · rintro ⟨place, ht, rfl, hlen⟩
    rw [ht]
    exact if_neg (by omega)

/-- **What can be opened**: a path that leads to a folder, unless the absolute form is too long. -/
theorem opens_iff (hwork : Reached disk.top disk.workingFolder) : disk.Opens p r ↔
    ∃ place, disk.trace p = .ok place ∧ HasFolder disk.top place ∧ r = pathOf place ∧
      Text.bytes r.text ≤ maxPath := by
  unfold Opens
  rw [canonical_eq_ok_iff]
  constructor
  · rintro ⟨⟨place, ht, rfl, hlen⟩, hf⟩
    exact ⟨place, ht, (isFolder_pathOf_iff (reached_of_trace hwork ht) hlen).mp hf, rfl, hlen⟩
  · rintro ⟨place, ht, hf, rfl, hlen⟩
    exact ⟨⟨place, ht, rfl, hlen⟩, (isFolder_pathOf_iff (reached_of_trace hwork ht) hlen).mpr hf⟩

end Unbundled.Disk
